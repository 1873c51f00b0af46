import Dlbase.Table.Find

/-!
# Resizing

A resize keeps the entries of the table: those that stay in the array stay where they are, and all
others are inserted again.  As an insertion can lead to another resize, the proof is an induction on
the depth of the nested calls.
-/

namespace Dlbase.Table

open Cmem

variable {A : Malloc} {put : DlTable → Key → Exec Insertion} {t t' t'' : DlTable} {n : Objects Node}
  {C : Multiset (List Item)} {F : Multiset (Nat × Int)} {L : List Item} {key : Key} {l : Loc}
  {E E' : Entries} {fuel depth : Nat} {nasize nhsize oldasize : Int}

/-- Insertions that return a pointer are well behaved. -/
def SetsWell (put : DlTable → Key → Exec Insertion) : Prop :=
  ∀ {t E key t' l}, Shape t E → put t key = .ok (t', some l) → Inserts t E key t' l

/-- The entry of a node. -/
def nodeEntry (x : Node) : Entries := if x.val.tt = .nil then 0 else {(x.key, x.val)}

/-- The entry of the node at an index. -/
def entryAt (p : NodePart) (i : Nat) : Entries :=
  match p.load i with
  | .ok x => nodeEntry x
  | .error _ => 0

/-! ## Nodes and their entries -/

theorem sum_chainCells (q : Option Nat) (hL : ∀ j ∈ L, j.val.Used) :
    ((chainCells q L).map fun e ↦ nodeEntry e.2).sum = ↑(L.map Item.entry) := by
  induction L with
  | nil => rfl
  | cons i L ih =>
    have hi : nodeEntry (i.node (firstItem q L)) = {i.entry} :=
      if_neg (hL i List.mem_cons_self).1
    rw [chainCells, Multiset.map_add, Multiset.sum_add,
      ih fun j hj ↦ hL j (List.mem_cons_of_mem _ hj), cell, Multiset.map_singleton,
      Multiset.sum_singleton, hi, List.map_cons, ← Multiset.cons_coe, Multiset.singleton_add]

theorem sum_nodeCells (hC : ∀ L ∈ C, ∀ j ∈ L, j.val.Used) :
    ((nodeCells C F).map fun e ↦ nodeEntry e.2).sum = nodeEntries C := by
  induction C using Multiset.induction_on with
  | empty =>
    induction F using Multiset.induction_on with
    | empty => rfl
    | cons f F ih =>
      rw [nodeCells_cons_free, Multiset.map_add, Multiset.sum_add, ih, cell,
        Multiset.map_singleton, Multiset.sum_singleton]
      exact zero_add _
  | cons L C ih =>
    rw [nodeCells_cons, Multiset.map_add, Multiset.sum_add, nodeEntries_cons,
      ih fun L' hL' ↦ hC L' (Multiset.mem_cons_of_mem hL'),
      sum_chainCells none (hC L (Multiset.mem_cons_self _ _))]

/-- The entries of the nodes are those of the chains. -/
theorem Layout.sum_entryAt (h : Layout t n C F) :
    (∑ i ∈ Finset.range t.sizenode, entryAt (.nodes n) i) = nodeEntries C := by
  have hmap : (nodeCells C F).map (fun e ↦ entryAt (.nodes n) e.1) =
      (nodeCells C F).map fun e ↦ nodeEntry e.2 := by
    refine Multiset.map_congr rfl fun e he ↦ ?_
    have hload : (NodePart.nodes n).load e.1 = .ok e.2 := h.holds.get_eq he
    rw [entryAt, hload]
  rw [← sum_nodeCells h.used, ← hmap, Finset.sum, Finset.range_val, ← h.addrs, Multiset.map_map]
  rfl

/-! ## New parts -/

theorem layout_freeNodes (ht : t.node = .nodes (freeNodes t.sizenode))
    (hk : t.lastfree = some (t.sizenode : Int)) : Chains t 0 := by
  refine .nodes (F := (Multiset.range t.sizenode).map fun i ↦ (i, 0)) ht ⟨⟨fun e he ↦ ?_, ?_, ?_⟩,
    ?_, nofun, nofun, ⟨_, hk, le_rfl⟩, fun f hf k hk' ↦ ?_⟩
  · rcases Multiset.mem_add.mp he with he | he
    · cases he
    · rw [Multiset.map_map] at he
      obtain ⟨i, hi, rfl⟩ := Multiset.mem_map.mp he
      exact if_pos (Multiset.mem_range.mp hi)
  · rw [nodeCells, Multiset.zero_bind, zero_add, Multiset.map_map, Multiset.map_map]
    exact (Multiset.map_id' _).symm ▸ Multiset.nodup_range _
  · exact ⟨t.sizenode, fun i hi ↦ if_neg (Nat.not_lt.mpr hi)⟩
  · rw [nodeCells, Multiset.zero_bind, zero_add, Multiset.map_map, Multiset.map_map]
    exact Multiset.map_id' _
  · obtain ⟨i, hi, rfl⟩ := Multiset.mem_map.mp hf
    obtain rfl := Option.some.inj (hk.symm.trans hk')
    exact Int.ofNat_lt.mpr (Multiset.mem_range.mp hi)

/-- New nodes are free. -/
theorem nodeInit_spec (h : nodeInit A t nhsize = (t', true)) : Chains t' 0 ∧
    ∃ p k c l, t' = { t with node := p, lastfree := k, allocs := c, lsizenode := l } ∧
      t.allocs ≤ c ∧ l ≤ maxBits := by
  unfold nodeInit DlTable.alloc at h
  dsimp only at h
  by_cases hsize : nhsize = 0
  · rw [if_pos hsize] at h
    obtain ⟨rfl, -⟩ := Prod.mk.inj h
    exact ⟨.dummy rfl rfl rfl, _, _, _, _, rfl, le_rfl, Nat.zero_le _⟩
  rw [if_neg hsize] at h
  by_cases hbits : maxBits < ceillog2 64 (nhsize % 2 ^ 64).toNat
  · rw [if_pos hbits] at h
    cases h
  rw [if_neg hbits] at h
  by_cases hok : (!A.fails t.allocs) = true
  · rw [if_pos hok] at h
    obtain ⟨rfl, -⟩ := Prod.mk.inj h
    exact ⟨layout_freeNodes rfl (by simp [DlTable.sizenode]), _, _, _, _, rfl, Nat.le_succ _,
      by omega⟩
  · rw [if_neg hok] at h
    cases h

/-- The number of new nodes is a power of two. -/
theorem nodeInit_eq {size : Nat} (hA : ∀ i, A.fails i = false) (hpos : 0 < size)
    (hle : size ≤ 2 ^ maxBits) : nodeInit A t size =
      ({ t with
         node := .nodes (freeNodes (2 ^ Nat.clog 2 size)), lsizenode := Nat.clog 2 size
         lastfree := some (2 ^ Nat.clog 2 size), allocs := t.allocs + 1 }, true) := by
  have hpow : 2 ^ maxBits < 2 ^ 64 := by decide
  have hmod : (((size : Nat) : Int) % 2 ^ 64).toNat = size := by omega
  have hlog : ceillog2 64 size = Nat.clog 2 size := ceillog2_eq_clog hpos (by omega)
  have hbits : Nat.clog 2 size ≤ maxBits := (Nat.clog_le_iff_le_pow Nat.one_lt_two).mpr hle
  unfold nodeInit DlTable.alloc
  rw [if_neg (by omega), hmod, hlog]
  dsimp only
  rw [if_neg (by omega), hA]
  rfl

/-- A larger array holds the old values and then none. -/
theorem growArray_values (ha : ArrayOk t) (hlt : t.sizearray < nasize) (hpos : 0 < nasize)
    (h : growArray A t nasize = .ok (t', true)) : ∃ vs : List Value, t' =
        { t with
          array := some vs, arrayId := t.allocs + 1, sizearray := nasize, allocs := t.allocs + 1 } ∧
      nasize ≤ vs.length ∧ (∀ v ∈ vs, v.tt ≠ .null) ∧ ∀ i < nasize.toNat, cellEntry i vs[i]? =
        if i < t.sizearray.toNat then cellEntry i ((t.array.getD [])[i]?) else 0 := by
  unfold growArray arrayInit DlTable.alloc at h
  rw [if_pos hlt, if_pos hpos] at h
  dsimp only at h
  by_cases hok : (!A.fails t.allocs) = true
  swap
  · rw [if_neg hok] at h
    cases h
  rw [if_pos hok] at h
  dsimp only at h
  cases harr : t.array with
  | none =>
    rw [harr] at h
    have hsize : ¬ 0 < t.sizearray := fun hs ↦ by
      obtain ⟨vs, hvs, -⟩ := ha hs
      rw [harr] at hvs
      cases hvs
    obtain ⟨rfl, -⟩ := Prod.mk.inj (Except.ok.inj h)
    refine ⟨_, rfl, by simp, fun v hv ↦ ?_, fun i hi ↦ ?_⟩
    · rw [List.eq_of_mem_replicate hv]
      rintro ⟨⟩
    · rw [if_neg (by omega), List.getElem?_replicate_of_lt hi]
      exact cellEntry_nil rfl
  | some old =>
    rw [harr] at h
    dsimp only at h
    by_cases hle : t.sizearray ≤ old.length
    swap
    · rw [if_neg hle] at h
      cases h
    rw [if_pos hle] at h
    obtain ⟨rfl, -⟩ := Prod.mk.inj (Except.ok.inj h)
    have hlen : (old.take t.sizearray.toNat).length = t.sizearray.toNat := by
      rw [List.length_take]
      omega
    refine ⟨_, rfl, ?_, fun v hv ↦ ?_, fun i hi ↦ ?_⟩
    · rw [List.length_append, List.length_take, List.length_drop, List.length_replicate]
      omega
    · rcases List.mem_append.mp hv with hv | hv
      · by_cases hs : 0 < t.sizearray
        · obtain ⟨vs, hvs, -, htags⟩ := ha hs
          rw [harr] at hvs
          obtain rfl := Option.some.inj hvs
          exact htags v (List.mem_of_mem_take hv)
        · rw [show t.sizearray.toNat = 0 by omega] at hv
          cases hv
      · rw [List.eq_of_mem_replicate (List.mem_of_mem_drop hv)]
        rintro ⟨⟩
    · split_ifs with hi'
      · rw [List.getElem?_append_left (by omega), List.getElem?_take_of_lt hi']
        rfl
      · rw [List.getElem?_append_right (by omega), hlen, List.getElem?_drop,
          List.getElem?_replicate_of_lt (by omega)]
        exact cellEntry_nil rfl

/-- An array that stays empty has the same values. -/
theorem growArray_empty (hlt : t.sizearray < nasize) (hpos : ¬ 0 < nasize)
    (h : growArray A t nasize = .ok (t', true)) :
    ∃ vs, t' = { t with array := vs, sizearray := nasize } ∧ vs.getD [] = t.array.getD [] := by
  unfold growArray arrayInit at h
  rw [if_pos hlt, if_neg hpos] at h
  dsimp only at h
  cases harr : t.array with
  | none =>
    rw [harr] at h
    obtain ⟨rfl, -⟩ := Prod.mk.inj (Except.ok.inj h)
    exact ⟨_, rfl, rfl⟩
  | some old =>
    rw [harr] at h
    dsimp only at h
    rw [if_pos (by omega)] at h
    obtain ⟨rfl, -⟩ := Prod.mk.inj (Except.ok.inj h)
    exact ⟨_, rfl, List.take_append_drop _ _⟩

/-- A larger array has the same entries. -/
theorem growArray_spec (ha : ArrayOk t) (hid : t.arrayId ≤ t.allocs)
    (h : growArray A t nasize = .ok (t', true)) :
    ArrayOk t' ∧ arrayEntries t' = arrayEntries t ∧ Frame t t' ∧ t'.arrayId ≤ t'.allocs ∧
      t'.sizearray = max t.sizearray nasize := by
  by_cases hlt : t.sizearray < nasize
  swap
  · unfold growArray at h
    rw [if_neg hlt] at h
    obtain ⟨rfl, -⟩ := Prod.mk.inj (Except.ok.inj h)
    exact ⟨ha, rfl, .refl _, hid, (max_eq_left (not_lt.mp hlt)).symm⟩
  rw [max_eq_right hlt.le]
  by_cases hpos : 0 < nasize
  · obtain ⟨vs, rfl, hlen, htags, hcells⟩ := growArray_values ha hlt hpos h
    refine ⟨fun _ ↦ ⟨vs, rfl, hlen, htags⟩, ?_, ⟨rfl, rfl, ?_, fun heq ↦ ?_, fun heq ↦ ?_, id⟩,
      le_rfl, rfl⟩
    · rw [arrayEntries, arrayEntries]
      dsimp only
      rw [Option.getD_some, Finset.sum_congr rfl fun i hi ↦ hcells i (Finset.mem_range.mp hi),
        ← Finset.sum_filter]
      refine Finset.sum_congr ?_ fun _ _ ↦ rfl
      ext i
      rw [Finset.mem_filter, Finset.mem_range, Finset.mem_range]
      omega
    · dsimp only
      omega
    · dsimp only at heq
      omega
    · dsimp only at heq
      omega
  · obtain ⟨vs, rfl, hvs⟩ := growArray_empty hlt hpos h
    refine ⟨fun hp ↦ absurd hp hpos, ?_, ⟨rfl, rfl, le_rfl, fun _ ↦ ?_, fun _ i _ ↦ ?_, id⟩, hid,
      rfl⟩
    · rw [arrayEntries, arrayEntries]
      dsimp only
      rw [show nasize.toNat = 0 by omega, show t.sizearray.toNat = 0 by omega]
      rfl
    · dsimp only
      omega
    · dsimp only
      rw [hvs]

/-! ## Inserting again -/

/-- The values of the old array beyond the end of the new one are inserted. -/
theorem shrinkLoop_spec (hset : SetsWell put) {id k i : Nat} {vs : Nat → Option Value}
    (hvs : ∀ j v, vs j = some v → v.tt ≠ .null) (h : Shape t E)
    (hsize : t.arrayId = id → t.sizearray ≤ i)
    (harr : t.arrayId = id → ∀ j : Nat, i ≤ j → (t.array.getD [])[j]? = vs j)
    (hrun : shrinkLoop put id k i t = .ok t') :
    ∃ E', Shape t' E' ∧ Frame t t' ∧
      Kept t.mem ((∑ j ∈ Finset.range k, cellEntry (i + j) (vs (i + j))) + E) E' := by
  induction k generalizing i t E with
  | zero =>
    obtain rfl := Except.ok.inj hrun
    exact ⟨E, h, .refl _, by rw [Finset.sum_range_zero, zero_add]; exact .refl _⟩
  | succ k ih =>
    have hsum : (∑ j ∈ Finset.range (k + 1), cellEntry (i + j) (vs (i + j))) =
        (∑ j ∈ Finset.range k, cellEntry (i + 1 + j) (vs (i + 1 + j))) + cellEntry i (vs i) := by
      rw [Finset.sum_range_succ', add_zero]
      refine congrArg (· + _) (Finset.sum_congr rfl fun j _ ↦ ?_)
      rw [Nat.add_assoc i 1 j, Nat.add_comm 1 j]
    -- a value that is read is the one in the old array
    have hread : ∀ {t₁ : DlTable} {v}, Frame t t₁ →
        loadOld t₁ id i = .ok v → t₁.arrayId = id ∧ (t.arrayId = id → vs i = some v) := by
      intro t₁ v hf hv
      unfold loadOld at hv
      split_ifs at hv with hid
      · refine ⟨hid, fun hid' ↦ ?_⟩
        rw [← harr hid' i le_rfl, ← hf.array (hid.trans hid'.symm) i (hsize hid')]
        exact getElem?_of_loadArray hv
      · cases hv
    rw [shrinkLoop] at hrun
    obtain ⟨v, hv, hrun⟩ := Exec.bind_eq_ok.mp hrun
    obtain ⟨hid, hvi⟩ := hread (.refl t) hv
    have hvi := hvi hid
    rw [hsum, hvi]
    by_cases hnil : v.tt = .nil
    · rw [if_pos hnil] at hrun
      rw [cellEntry_nil hnil, add_zero]
      refine ih h (fun hid ↦ ?_) (fun hid j hj ↦ harr hid j (by omega)) hrun
      have hle := hsize hid
      omega
    · rw [if_neg hnil] at hrun
      have hused : v.Used := ⟨hnil, hvs i v hvi⟩
      obtain ⟨⟨t₁, o⟩, hins, hrun⟩ := Exec.bind_eq_ok.mp hrun
      cases o with
      | none => cases hrun
      | some l =>
        obtain ⟨v', hv', hwrite⟩ := Exec.bind_eq_ok.mp hrun
        obtain ⟨t₂, hw, hrest⟩ := Exec.bind_eq_ok.mp hwrite
        have hins := hset h hins
        have hvi' := (hread hins.frame hv').2 hid
        obtain rfl := Option.some.inj (hvi.symm.trans hvi')
        obtain ⟨t₃, E₁, hw', hf, hshape, hkept⟩ := hins.write v hused
        obtain rfl := Except.ok.inj (hw.symm.trans hw')
        have hle := hsize hid
        have hsize' : t₂.arrayId = id → t₂.sizearray ≤ ((i + 1 : Nat) : Int) := fun hid' ↦ by
          have hle' := hf.size (hid'.trans hid.symm)
          omega
        have harr' : t₂.arrayId = id → ∀ j : Nat, i + 1 ≤ j →
            (t₂.array.getD [])[j]? = vs j := fun hid' j hj ↦ by
          rw [hf.array (hid'.trans hid.symm) j (by omega)]
          exact harr hid j (by omega)
        obtain ⟨E', hshape', hf', hkept'⟩ := ih hshape hsize' harr' hrest
        refine ⟨E', hshape', hf.trans hf', ?_⟩
        rw [hf.mem] at hkept'
        rw [cellEntry_used hused, add_assoc, Multiset.singleton_add]
        exact (hkept.add _).trans hkept'

/-- The values of the old nodes are inserted. -/
theorem reinsertLoop_spec (hset : SetsWell put) {old : NodePart} {i : Nat}
    (hold : ∀ j x, j < i → old.load j = .ok x → x.val.tt ≠ .null) (h : Shape t E)
    (hrun : reinsertLoop put old i t = .ok t') :
    ∃ E', Shape t' E' ∧ Frame t t' ∧
      Kept t.mem ((∑ j ∈ Finset.range i, entryAt old j) + E) E' := by
  induction i generalizing t E with
  | zero =>
    obtain rfl := Except.ok.inj hrun
    exact ⟨E, h, .refl _, by rw [Finset.sum_range_zero, zero_add]; exact .refl _⟩
  | succ i ih =>
    rw [reinsertLoop] at hrun
    obtain ⟨x, hx, hrun⟩ := Exec.bind_eq_ok.mp hrun
    have hentry : entryAt old i = nodeEntry x := by rw [entryAt, hx]
    have hbelow : ∀ j x, j < i → old.load j = .ok x → x.val.tt ≠ .null := fun j x hj ↦
      hold j x (Nat.lt_succ_of_lt hj)
    rw [Finset.sum_range_succ, hentry]
    by_cases hnil : x.val.tt = .nil
    · rw [if_pos hnil] at hrun
      rw [nodeEntry, if_pos hnil, add_zero]
      exact ih hbelow h hrun
    · rw [if_neg hnil] at hrun
      obtain ⟨⟨t₁, o⟩, hins, hrun⟩ := Exec.bind_eq_ok.mp hrun
      cases o with
      | none => cases hrun
      | some l =>
        obtain ⟨t₂, hw, hrest⟩ := Exec.bind_eq_ok.mp hrun
        obtain ⟨t₃, E₁, hw', hf, hshape, hkept⟩ := (hset h hins).write x.val
          ⟨hnil, hold i x (Nat.lt_succ_self i) hx⟩
        obtain rfl := Except.ok.inj (hw.symm.trans hw')
        obtain ⟨E', hshape', hf', hkept'⟩ := ih hbelow hshape hrest
        refine ⟨E', hshape', hf.trans hf', ?_⟩
        rw [hf.mem] at hkept'
        rw [nodeEntry, if_neg hnil, add_assoc, Multiset.singleton_add]
        exact (hkept.add _).trans hkept'

/-! ## Both parts -/

/-- The nodes have no value with the tag of `_dummynode`. -/
theorem Layout.load_ne_null (h : Layout t n C F) {i : Nat} {x : Node} (hi : i < t.sizenode)
    (hx : (NodePart.nodes n).load i = .ok x) : x.val.tt ≠ .null := by
  have hx : n.get i = .ok x := hx
  rcases h.cases hi with ⟨v, F', rfl⟩ | ⟨L₁, j, L₂, C', rfl, rfl⟩
  · obtain rfl := Except.ok.inj ((h.holds_free.get_eq Holds.mem_cell).symm.trans hx)
    exact nofun
  · have hm := h.holds_chain
    rw [chainCells_middle, add_assoc] at hm
    obtain rfl := Except.ok.inj ((hm.get_eq Holds.mem_cell).symm.trans hx)
    exact (h.used _ (Multiset.mem_cons_self _ _) j (by simp)).2

/-- A table whose nodes are all free. -/
theorem shape_array (ha : ArrayOk t) (hid : t.arrayId ≤ t.allocs) (hc : Chains t 0) :
    Shape t (arrayEntries t) :=
  ⟨ha, hid, 0, hc, (add_zero _).symm, nofun⟩

/-- The entries of the array up to a smaller size, and those beyond it. -/
theorem arrayEntries_split (hsize : t.sizearray = oldasize) (hle : nasize ≤ oldasize)
    (hpos : 0 ≤ nasize) : arrayEntries t = arrayEntries { t with sizearray := nasize } +
      ∑ j ∈ Finset.range (oldasize - nasize).toNat,
        cellEntry (nasize.toNat + j) ((t.array.getD [])[nasize.toNat + j]?) := by
  have hlen : t.sizearray.toNat = nasize.toNat + (oldasize - nasize).toNat := by omega
  rw [arrayEntries, arrayEntries, hlen]
  exact Finset.sum_range_add _ _ _

/-- The array gets a smaller size, and the values beyond it are inserted. -/
theorem shrinkArray_spec (hset : SetsWell put) (ha : ArrayOk t) (hid : t.arrayId ≤ t.allocs)
    (hc : Chains t 0) (hsize : t.sizearray = max oldasize nasize) (hpos : 0 ≤ nasize)
    (hrun : shrinkArray put oldasize nasize t = .ok t') :
    ∃ E, Shape t' E ∧ Frame t t' ∧ Kept t.mem (arrayEntries t) E := by
  unfold shrinkArray at hrun
  split_ifs at hrun with hlt
  · rw [max_eq_left hlt.le] at hsize
    have ha' : ArrayOk { t with sizearray := nasize } := fun hp ↦ by
      obtain ⟨vs, hvs, hlen, htags⟩ := ha (by omega)
      exact ⟨vs, hvs, by dsimp only; omega, htags⟩
    have htags : ∀ (j : Nat) (v : Value), (t.array.getD [])[j]? = some v → v.tt ≠ .null := fun j v hv ↦ by
      obtain ⟨vs, hvs, -, htags⟩ := ha (by omega)
      rw [hvs] at hv
      exact htags v (List.mem_of_getElem? hv)
    obtain ⟨E, hshape, hf, hkept⟩ := shrinkLoop_spec hset htags
      (shape_array ha' hid (hc.congr_array nasize t.array))
      (fun _ ↦ (Int.toNat_of_nonneg hpos).ge) (fun _ _ _ ↦ rfl) hrun
    have hf₁ : Frame t { t with sizearray := nasize } :=
      ⟨rfl, rfl, le_rfl, fun _ ↦ by dsimp only; omega, fun _ _ _ ↦ rfl, id⟩
    refine ⟨E, hshape, hf₁.trans hf, ?_⟩
    rw [arrayEntries_split hsize hlt.le hpos, add_comm]
    exact hkept
  · obtain rfl := Except.ok.inj hrun
    exact ⟨_, shape_array ha hid hc, .refl _, .refl _⟩

/-- The old nodes are inserted again. -/
theorem reinsert_spec (hset : SetsWell put) (hc : Chains t C) (hmem : t'.mem = t.mem)
    (h : Shape t' E) (hrun : reinsert put t.node t.sizenode t' = .ok t'') :
    ∃ E', Shape t'' E' ∧ Frame t' t'' ∧ Kept t.mem (nodeEntries C + E) E' := by
  unfold reinsert at hrun
  cases hc with
  | dummy hn =>
    rw [hn] at hrun
    obtain rfl := Except.ok.inj hrun
    refine ⟨E, h, .refl _, ?_⟩
    rw [nodeEntries, Multiset.zero_bind, zero_add]
    exact .refl _
  | nodes hn hl =>
    rw [hn] at hrun
    obtain ⟨E', hshape, hf, hkept⟩ := reinsertLoop_spec hset
      (fun j x hj hx ↦ hl.load_ne_null hj hx) h hrun
    refine ⟨E', hshape, hf, ?_⟩
    rwa [hl.sum_entryAt, hmem] at hkept

/-- A resize keeps the entries. -/
theorem resize_spec (hset : SetsWell put) (h : Shape t E) (hpos : 0 ≤ nasize)
    (hrun : resize A put t nasize nhsize = .ok (t', true)) :
    ∃ E', Shape t' E' ∧ Frame t t' ∧ Kept t.mem E E' := by
  unfold resize at hrun
  obtain ⟨⟨t₁, ok₁⟩, hgrow, hrun⟩ := Exec.bind_eq_ok.mp hrun
  cases ok₁ with
  | false => cases hrun
  | true =>
    dsimp only at hrun
    obtain ⟨ha₁, hentries, hf₁, hid₁, hsize₁⟩ := growArray_spec h.array h.id hgrow
    rcases hinit : nodeInit A t₁ nhsize with ⟨t₂, ok₂⟩
    rw [hinit] at hrun
    cases ok₂ with
    | false => cases hrun
    | true =>
      dsimp only at hrun
      obtain ⟨t₃, hshrink, hrest⟩ := Exec.bind_eq_ok.mp hrun
      obtain ⟨t₄, hreinsert, hret⟩ := Exec.bind_eq_ok.mp hrest
      obtain ⟨rfl, -⟩ := Prod.mk.inj (Except.ok.inj hret)
      obtain ⟨hc₂, p, k, c, l, rfl, hle, hbits⟩ := nodeInit_spec hinit
      have hf₂ : Frame t₁ { t₁ with node := p, lastfree := k, allocs := c, lsizenode := l } :=
        ⟨rfl, rfl, le_rfl, fun _ ↦ le_max_left _ _, fun _ _ _ ↦ rfl, fun _ ↦ hbits⟩
      have hid₂ : ({ t₁ with node := p, lastfree := k, allocs := c, lsizenode := l } : DlTable).arrayId
          ≤ c := hid₁.trans hle
      have ha₂ : ArrayOk { t₁ with node := p, lastfree := k, allocs := c, lsizenode := l } := ha₁
      obtain ⟨E₃, hshape₃, hf₃, hkept₃⟩ := shrinkArray_spec hset ha₂ hid₂ hc₂ hsize₁ hpos hshrink
      obtain ⟨C, hC, rfl, -⟩ := h.nodes
      have hf := (hf₁.trans hf₂).trans hf₃
      obtain ⟨E', hshape', hf', hkept'⟩ := reinsert_spec hset hC hf.mem hshape₃ hreinsert
      refine ⟨E', hshape', hf.trans hf', ?_⟩
      have hentries₂ : arrayEntries
          { t₁ with node := p, lastfree := k, allocs := c, lsizenode := l } = arrayEntries t :=
        (arrayEntries_congr rfl rfl).trans hentries
      rw [hentries₂, (hf₁.trans hf₂).mem] at hkept₃
      rw [add_comm]
      exact (hkept₃.add _).trans hkept'

theorem newSizes_nonneg {ek : Key} (h : newSizes t ek = .ok (nasize, nhsize)) : 0 ≤ nasize := by
  unfold newSizes at h
  obtain ⟨⟨used, nums⟩, -, h⟩ := Exec.bind_eq_ok.mp h
  obtain ⟨⟨inHash, ause, nums'⟩, -, h⟩ := Exec.bind_eq_ok.mp h
  obtain ⟨⟨na, size⟩, -, h⟩ := Exec.bind_eq_ok.mp h
  obtain ⟨rfl, -⟩ := Prod.mk.inj (Except.ok.inj h)
  exact Int.natCast_nonneg _

/-- A rehash keeps the entries. -/
theorem rehash_spec (hset : SetsWell put) (h : Shape t E)
    (hrun : rehash A put t key = .ok (t', true)) :
    ∃ E', Shape t' E' ∧ Frame t t' ∧ Kept t.mem E E' := by
  unfold rehash at hrun
  obtain ⟨⟨nasize, nhsize⟩, hsizes, hrun⟩ := Exec.bind_eq_ok.mp hrun
  exact resize_spec hset h (newSizes_nonneg hsizes) hrun

/-! ## Insertions -/

/-- An insertion after the table has been rearranged. -/
theorem Inserts.of_kept (hf : Frame t t') (hk : Kept t.mem E E') (h : Inserts t' E' key t'' l) :
    Inserts t E key t'' l := by
  refine ⟨hf.trans h.frame, fun x hx ↦ ?_⟩
  obtain ⟨t₁, E₁, hw, hf₁, hshape, hkept⟩ := h.write x hx
  rw [hf.mem] at hkept
  exact ⟨t₁, E₁, hw, hf.trans hf₁, hshape, (hk.add {(key, x)}).trans hkept⟩

/-- A value can be written for a key that has been put in a node. -/
theorem Placed.shape (hp : Placed t C key t' l) (ha : ArrayOk t) (hid : t.arrayId ≤ t.allocs)
    (hsep : ∀ e ∈ nodeEntries C, ∀ k, e.1 = .int k → ¬ InArray t k)
    (hout : ∀ k, key = .int k → ¬ InArray t k) {x : Value} (hx : x.Used) :
    ∃ t'', writeVal t' l x = .ok t'' ∧ Frame t t'' ∧
      Shape t'' ((key, x) ::ₘ (arrayEntries t + nodeEntries C)) := by
  obtain ⟨⟨p, k, rfl⟩, hwrite⟩ := hp
  obtain ⟨n, C', F, hw, hl, hentries⟩ := hwrite x hx
  refine ⟨_, hw, .nodes t _ _, ha, hid, C', .nodes rfl hl, ?_, ?_⟩
  · rw [hentries, Multiset.add_cons]
    rfl
  · rw [hentries]
    intro e he j hj
    rcases Multiset.mem_cons.mp he with rfl | he
    · exact hout j hj
    · exact hsep e he j hj

/-- A key has been put in a node. -/
theorem Placed.inserts (hp : Placed t C key t' l) (ha : ArrayOk t) (hid : t.arrayId ≤ t.allocs)
    (hsep : ∀ e ∈ nodeEntries C, ∀ k, e.1 = .int k → ¬ InArray t k)
    (hout : ∀ k, key = .int k → ¬ InArray t k) :
    Inserts t (arrayEntries t + nodeEntries C) key t' l := by
  refine ⟨?_, fun x hx ↦ ?_⟩
  · obtain ⟨⟨p, k, rfl⟩, -⟩ := hp
    exact .nodes t p k
  · obtain ⟨t'', hw, hf, hshape⟩ := hp.shape ha hid hsep hout hx
    exact ⟨t'', _, hw, hf, hshape, .refl _⟩

/-- The number of nodes that there are for keys. -/
def capacity (t : DlTable) : Nat := if t.node.isDummy then 0 else t.sizenode

/-- What `dl_newkey_l` does when it has found no free node. -/
def makeRoom (A : Malloc) (put : DlTable → Key → Exec Insertion) (t : DlTable) (key : Key) :
    Exec Insertion := do
  let (t, ok) ← rehash A put t key
  if ok then put t key else pure (t, none)

theorem capacity_dummy (hn : t.node = .dummy) : capacity t = 0 := by
  rw [capacity, hn]
  rfl

theorem capacity_nodes (hn : t.node = .nodes n) : capacity t = t.sizenode := by
  rw [capacity, hn]
  rfl

/-- `dl_newkey_l` puts the key in a node, unless all nodes are in use. -/
theorem newkeyWith_cases (A : Malloc) (put : DlTable → Key → Exec Insertion) (fuel : Nat) {mp : Nat}
    (hc : Chains t C) (hmain : mainPos t key = .ok mp) :
    (∃ t₁ l, Placed t C key t₁ l ∧
        Exec.Extends (newkeyWith A put fuel t key) (.ok (t₁, some l)) ∧
        (t.sizenode ≤ fuel → newkeyWith A put fuel t key = .ok (t₁, some l)) ∧
        (nodeEntries C).card < capacity t) ∨
      ∃ k, Chains { t with lastfree := k } C ∧ (nodeEntries C).card = capacity t ∧
        newkeyWith A put fuel t key = makeRoom A put { t with lastfree := k } key := by
  unfold newkeyWith
  rw [hmain, Exec.ok_bind]
  cases hc with
  | dummy hn hl hf =>
    have hdummy : t.node.isDummy = true := by rw [hn]; rfl
    have hmp : mp = 0 := by
      have hlt := mainPos_lt hmain
      rw [DlTable.sizenode, hl] at hlt
      omega
    refine .inr ⟨none, .dummy hn hl rfl, (capacity_dummy hn).symm, ?_⟩
    rw [loadNode_dummy hn, if_pos hmp, Exec.ok_bind, if_pos (.inr hdummy), getfreepos, hf]
    have ht : { t with lastfree := none } = t := by rw [← hf]
    rw [ht]
    rfl
  | @nodes n _ F hn hl =>
    have hnot : ¬ t.node.isDummy = true := by
      rw [hn]
      rintro ⟨⟩
    have hcard := hl.card_eq
    rw [capacity_nodes hn]
    rcases hl.cases (mainPos_lt hmain) with ⟨v, F', rfl⟩ | ⟨L₁, j, L₂, C', rfl, rfl⟩
    · -- the main position is free
      obtain ⟨t₁, hplace, hp⟩ := placeKey_spec hn hl hmain
      have hnil : ¬ ((freeNode v).val.tt ≠ .nil ∨ t.node.isDummy = true) :=
        not_or.mpr ⟨not_not.mpr rfl, hnot⟩
      rw [loadNode_eq hn hl.holds_free, Exec.ok_bind, if_neg hnil, hplace]
      rw [Multiset.card_cons] at hcard
      exact .inl ⟨t₁, _, hp, .refl _, fun _ ↦ rfl, by omega⟩
    · -- there is a collision
      have hused : j.val.tt ≠ .nil := (hl.used _ (Multiset.mem_cons_self _ _) j (by simp)).1
      have hnil : (j.node (firstItem none L₂)).val.tt ≠ .nil ∨ t.node.isDummy = true := .inl hused
      rw [hl.load hn, Exec.ok_bind, if_pos hnil]
      rcases getfreepos_spec hn hl with ⟨rfl, k, hk, hfree⟩ | ⟨f, v, F', rfl, hfree, hF⟩
      · rw [hfree]
        have hlay : Layout { t with lastfree := some k } n ((L₁ ++ j :: L₂) ::ₘ C') 0 :=
          ⟨hl.holds, hl.addrs, fun L hL ↦ (hl.chain L hL).congr rfl rfl, hl.used, ⟨k, rfl, hk⟩,
            fun _ he ↦ absurd he (Multiset.notMem_zero _)⟩
        exact .inr ⟨some k, .nodes hn hlay, hcard, rfl⟩
      · rw [hfree, Exec.ok_bind]
        obtain ⟨t₁, l₁, ⟨⟨p, k, hfields⟩, hwrite⟩, hext, hfuel⟩ :=
          insertFree_spec fuel hn hl hF hmain
        rw [Multiset.card_cons] at hcard
        exact .inl ⟨t₁, l₁, ⟨⟨p, k, hfields⟩, hwrite⟩, hext, hfuel, by omega⟩

/-- `dl_newkey_l` inserts a key that does not belong to the array. -/
theorem newkeyWith_spec (hset : SetsWell put) (h : Shape t E)
    (hout : ∀ k, key = .int k → ¬ InArray t k)
    (hrun : newkeyWith A put fuel t key = .ok (t', some l)) : Inserts t E key t' l := by
  obtain ⟨mp, hmain, -⟩ := Exec.bind_eq_ok.mp hrun
  obtain ⟨C, hC, rfl, hsep⟩ := h.nodes
  rcases newkeyWith_cases A put fuel hC hmain with ⟨t₁, l₁, hp, hext, -, -⟩ | ⟨k, hC', -, hroom⟩
  · obtain ⟨rfl, hl⟩ := Prod.mk.inj (Except.ok.inj ((hext.eq_ok hrun).symm))
    obtain rfl := Option.some.inj hl
    exact hp.inserts h.array h.id hsep hout
  · have h₀ : Shape { t with lastfree := k } (arrayEntries t + nodeEntries C) :=
      ⟨h.array, h.id, C, hC', rfl, hsep⟩
    rw [hroom] at hrun
    obtain ⟨⟨t₁, ok⟩, hre, hrun⟩ := Exec.bind_eq_ok.mp hrun
    cases ok with
    | false => cases hrun
    | true =>
      obtain ⟨E₁, h₁, hf₁, hk₁⟩ := rehash_spec hset h₀ hre
      exact (hset h₁ hrun).of_kept ((Frame.nodes t t.node k).trans hf₁) hk₁

/-- `dl_set_l` yields a pointer at which a value can be written, whatever happens before. -/
theorem setL_spec (A : Malloc) (fuel depth : Nat) : SetsWell (setL A fuel depth) := by
  induction depth with
  | zero =>
    intro t E key t' l h hrun
    cases hrun
  | succ depth ih =>
    intro t E key t' l h hrun
    rw [setL] at hrun
    obtain ⟨o, hfind, hrun⟩ := Exec.bind_eq_ok.mp hrun
    cases o with
    | some l' =>
      obtain ⟨rfl, hl⟩ := Prod.mk.inj (Except.ok.inj hrun)
      obtain rfl := Option.some.inj hl
      obtain ⟨c, hc⟩ : ∃ c, key.content t.mem = some c := by
        cases key with
        | int k => exact ⟨_, rfl⟩
        | str p =>
          obtain ⟨s, hs, -⟩ := Exec.bind_eq_ok.mp hfind
          exact ⟨_, content_str hs⟩
        | null => cases hfind
        | nil => cases hfind
      exact h.found (findL_eq hc ▸ hfind) hc
    | none =>
      have hout : ∀ k, key = .int k → ¬ InArray t k := fun k hk hin ↦ by
        rw [hk] at hfind
        cases (if_pos hin).symm.trans hfind
      exact newkeyWith_spec ih h hout hrun

/-- `dl_newkey_l` inserts a key that is not found. -/
theorem newkey_spec (h : Shape t E) (hout : ∀ k, key = .int k → ¬ InArray t k)
    (hrun : newkey A fuel depth t key = .ok (t', some l)) : Inserts t E key t' l :=
  newkeyWith_spec (setL_spec A fuel depth) h hout hrun

end Dlbase.Table
