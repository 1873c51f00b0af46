import Dlbase.Lib.Ends
import Dlbase.Table.Leftover

/-!
# Insertions that find room

As long as there are nodes for the keys that do not belong to the array, `dl_set_l` needs no rehash.
If a rehash leaves enough nodes, its own insertions are of this kind, and so is the one that
`dl_newkey_l` ends with.
-/

namespace Dlbase.Table

open Cmem

/-- How many nodes are in use. -/
def occupied (t : DlTable) : Nat := if t.node.isDummy then 0 else (allNodes t).card

/-- How many of the entries have keys that do not belong to the array. -/
def need (t : DlTable) (E : Entries) : Nat :=
  (E.map Prod.fst).countP fun k ↦ ¬ k.Fits t.sizearray.toNat

/-- The array and the nodes have their sizes, and at most `n` more nodes are in use. -/
structure Grows (t : DlTable) (n : Nat) (t' : DlTable) : Prop where
  /-- The array has its size. -/
  size : t'.sizearray = t.sizearray
  /-- The nodes have their number. -/
  log : t'.lsizenode = t.lsizenode
  /-- There are nodes if there have been. -/
  dummy : t'.node.isDummy = t.node.isDummy
  /-- At most `n` more nodes are in use. -/
  count : occupied t' ≤ occupied t + n

/-- Insertions need no rehash as long as there are nodes. -/
def Fills (put : DlTable → Key → Exec Insertion) (b : Nat) : Prop :=
  ∀ {t E key}, Shape t E → t.sizenode ≤ b → occupied t + need t {(key, ⟨0, .nil⟩)} ≤ capacity t →
    (put t key).Ends fun r ↦ ∀ l, r.2 = some l → ∀ x t', x.Used → writeVal r.1 l x = .ok t' →
      Grows t (need t {(key, ⟨0, .nil⟩)}) t'

variable {A : Malloc} {put : DlTable → Key → Exec Insertion} {t t' t'' : DlTable} {n : Objects Node}
  {C : Multiset (List Item)} {F : Multiset (Nat × Int)} {k key ek : Key} {l : Loc} {v x : Value}
  {c : Content} {d : Datum} {E E' R : Entries} {a b i fuel depth : Nat} {nasize nhsize oldasize : Int}

/-! ## Reading and writing -/

theorem load_ne_timeout (p : NodePart) (i : Nat) : p.load i ≠ Exec.timeout := by
  cases p with
  | null => exact nofun
  | dummy =>
    change (if i = 0 then .ok dummynode else Exec.undef) ≠ Exec.timeout
    split_ifs <;> exact nofun
  | nodes m => exact m.get_ne_timeout i

theorem loadArray_ne_timeout (t : DlTable) (i : Nat) : loadArray t i ≠ Exec.timeout := by
  unfold loadArray
  split
  · split <;> exact nofun
  · exact nofun

theorem loadOld_ne_timeout (t : DlTable) (id i : Nat) : loadOld t id i ≠ Exec.timeout := by
  unfold loadOld
  split
  · exact loadArray_ne_timeout t i
  · exact nofun

theorem loadOld_eq_ok {id : Nat} (h : loadOld t id i = .ok v) :
    t.arrayId = id ∧ (t.array.getD [])[i]? = some v := by
  unfold loadOld at h
  split_ifs at h with hid
  · exact ⟨hid, getElem?_of_loadArray h⟩
  · cases h

theorem readVal_ends (t : DlTable) (l : Loc) : (readVal t l).Ends fun _ ↦ True := by
  cases l with
  | array i => exact (Exec.ends_of_ne_timeout (loadArray_ne_timeout t i)).mono fun _ _ ↦ trivial
  | node i =>
    exact (Exec.ends_of_ne_timeout (load_ne_timeout t.node i)).bind fun _ _ ↦ Exec.ends_ok trivial

theorem storeNode_ends (t : DlTable) (i : Nat) (x : Node) : (storeNode t i x).Ends fun _ ↦ True := by
  unfold storeNode
  split
  · exact (Exec.ends_of_ne_timeout (Objects.put_ne_timeout _ i x)).bind fun _ _ ↦
      Exec.ends_ok trivial
  · exact Exec.ends_undef

theorem writeVal_ne_timeout (t : DlTable) (l : Loc) (x : Value) : writeVal t l x ≠ Exec.timeout := by
  cases l with
  | array i =>
    unfold writeVal
    dsimp only
    split
    · split <;> exact nofun
    · exact nofun
  | node i =>
    exact ((Exec.ends_of_ne_timeout (load_ne_timeout t.node i)).bind fun _ _ ↦
      storeNode_ends t i _).1

theorem release_ends (t : DlTable) (v : Value) : (release t v).Ends fun _ ↦ True := by
  unfold release
  split
  · exact (Exec.ends_of_ne_timeout (Objects.free_ne_timeout _ _)).bind fun _ _ ↦ Exec.ends_ok trivial
  · exact Exec.ends_ok trivial
  · exact Exec.ends_ok trivial

/-- A key can be looked for in as many rounds as there are nodes. -/
theorem Shape.find_ne_timeout (h : Shape t E) (c : Content) (hb : t.sizenode ≤ fuel) :
    find fuel t c ≠ Exec.timeout := by
  by_cases hin : ∃ k, c = .int k ∧ InArray t k
  · obtain ⟨k, rfl, hin⟩ := hin
    have hfind : find fuel t (.int k) = .ok (some (.array k.toNat)) := if_pos hin
    rw [hfind]
    exact nofun
  · obtain ⟨L, -, -, -, hfind⟩ := h.find_items (c := c) fun k hk hin' ↦ hin ⟨k, hk, hin'⟩
    rw [hfind fuel hb]
    exact searchItems_ne_timeout (c.test_ne_timeout t.mem)

/-! ## Nodes in use -/

theorem Chains.occupied_eq (h : Chains t C) : occupied t = (nodeEntries C).card := by
  unfold occupied
  cases h with
  | dummy hn =>
    rw [hn]
    rfl
  | nodes hn hl =>
    rw [hl.allNodes_eq hn, hn]
    exact if_neg nofun

theorem Chains.storedKeys_eq (h : Chains t C) :
    storedKeys t = (arrayEntries t + nodeEntries C).map Prod.fst := by
  rw [storedKeys, Multiset.map_add, nodeKeys]
  cases h with
  | dummy hn =>
    rw [hn]
    rfl
  | nodes hn hl =>
    rw [hl.allNodes_eq hn, hn]
    exact congrArg _ (if_neg (by rintro ⟨⟩))

theorem need_add (t : DlTable) (E R : Entries) : need t (E + R) = need t E + need t R := by
  rw [need, Multiset.map_add, Multiset.countP_add]
  rfl

/-- The values do not matter. -/
theorem need_singleton (t : DlTable) (k : Key) (v x : Value) : need t {(k, v)} = need t {(k, x)} := rfl

theorem need_congr (h : t'.sizearray = t.sizearray) (E : Entries) : need t' E = need t E := by
  rw [need, need, h]

/-- A key that is not found in the array needs a node. -/
theorem need_eq_one (hout : ∀ i, k = .int i → ¬ InArray t i) (v : Value) : need t {(k, v)} = 1 := by
  have hfit : ¬ k.Fits t.sizearray.toNat := by
    cases k with
    | int i =>
      intro hfit
      obtain ⟨hpos, hlt⟩ := hfit
      exact hout i rfl ⟨by omega, hpos⟩
    | str p => exact id
    | null => exact id
    | nil => exact id
  exact Multiset.countP_eq_card.mpr fun a ha ↦ by rwa [Multiset.mem_singleton.mp ha]

namespace Grows

theorem refl (t : DlTable) : Grows t 0 t := ⟨rfl, rfl, rfl, le_rfl⟩

theorem trans {m n : Nat} (h : Grows t m t') (h' : Grows t' n t'') : Grows t (m + n) t'' where
  size := h'.size.trans h.size
  log := h'.log.trans h.log
  dummy := h'.dummy.trans h.dummy
  count := by
    have hle := h.count
    have hle' := h'.count
    omega

theorem mono {m n : Nat} (h : Grows t m t') (hle : m ≤ n) : Grows t n t' :=
  ⟨h.size, h.log, h.dummy, h.count.trans (Nat.add_le_add_left hle _)⟩

theorem capacity_eq {n : Nat} (h : Grows t n t') : capacity t' = capacity t := by
  rw [capacity, capacity, h.dummy, DlTable.sizenode, DlTable.sizenode, h.log]

theorem sizenode_eq {n : Nat} (h : Grows t n t') : t'.sizenode = t.sizenode := by
  rw [DlTable.sizenode, DlTable.sizenode, h.log]

end Grows

/-! ## Insertions -/

/-- A value that is overwritten needs no other node. -/
theorem At.grows (h : At t k v R l) (ha : ArrayOk t) (hx : x.Used)
    (hw : writeVal t l x = .ok t') : Grows t 0 t' := by
  cases h with
  | @array i Q C hin =>
    obtain ⟨vs, v', Q', -, -, -, -, -, hwrite⟩ := array_focus ha hin
    obtain rfl := Except.ok.inj ((hwrite x).1.symm.trans hw)
    exact ⟨rfl, rfl, rfl, le_rfl⟩
  | @node n L₁ L₂ j C F hn hl =>
    obtain ⟨n', hrun, hl'⟩ := hl.write hn hx
    obtain rfl := Except.ok.inj (hrun.symm.trans hw)
    refine ⟨rfl, rfl, by rw [hn]; rfl, ?_⟩
    rw [(Chains.nodes hn hl).occupied_eq, (Chains.nodes rfl hl').occupied_eq, nodeEntries_middle,
      nodeEntries_middle, Multiset.card_cons, Multiset.card_cons]

/-- A new key needs one node. -/
theorem Placed.grows (h : Placed t C key t' l) (hc : Chains t C) (hn : ¬ t.node.isDummy)
    (hx : x.Used) (hw : writeVal t' l x = .ok t'') : Grows t 1 t'' := by
  obtain ⟨⟨p, k, rfl⟩, hwrite⟩ := h
  obtain ⟨n', C', F', hrun, hl, hentries⟩ := hwrite x hx
  obtain rfl := Except.ok.inj (hrun.symm.trans hw)
  refine ⟨rfl, rfl, ?_, ?_⟩
  · rw [Bool.eq_false_iff.mpr hn]
    rfl
  · rw [hc.occupied_eq, (Chains.nodes rfl hl).occupied_eq, hentries, Multiset.card_cons]

/-- A key that stands for nothing is not looked for. -/
theorem setL_undef (hk : key.content t.mem = none) :
    setL A fuel (depth + 1) t key = Exec.undef := by
  cases key with
  | int i => cases hk
  | null => rfl
  | nil => rfl
  | str p =>
    have hjoin := Option.map_eq_none_iff.mp hk
    have hload : loadStr t.mem p = Exec.undef := by
      unfold loadStr Objects.get
      rcases hp : t.mem p with - | - | s
      · rfl
      · rfl
      · rw [hp] at hjoin
        cases hjoin
    rw [setL, findL, hload]
    rfl

/-- `dl_set_l` needs no rehash as long as there are nodes. -/
theorem setL_fills (A : Malloc) (fuel depth : Nat) : Fills (setL A fuel (depth + 1)) fuel := by
  intro t E key h hb hroom
  rcases hk : key.content t.mem with - | c
  · rw [setL_undef hk]
    exact Exec.ends_undef
  have hfind := h.find_ne_timeout c hb
  rw [← findL_eq hk] at hfind
  rw [setL]
  refine (Exec.ends_of_ne_timeout hfind).bind fun o ho ↦ ?_
  rw [findL_eq hk] at ho
  cases o with
  | some l =>
    refine Exec.ends_ok fun l' hl' x t' hx hw ↦ ?_
    obtain rfl := Option.some.inj hl'
    obtain ⟨k, e, v, R, -, -, hat, -, -⟩ := h.at_find ho
    exact (hat.grows h.array hx hw).mono (Nat.zero_le _)
  | none =>
    have hout : ∀ i, key = .int i → ¬ InArray t i := fun i hi ↦ by
      rw [hi] at hk
      exact (h.not_found ho).1 i (Option.some.inj hk).symm
    have hone := need_eq_one hout ⟨0, .nil⟩
    obtain ⟨C, hC, rfl, -⟩ := h.nodes
    rw [hone, hC.occupied_eq] at hroom
    rw [hone]
    rcases newkeyWith_cases A (setL A fuel depth) fuel hC (mainPos_eq hk) with
      ⟨t₁, l, hp, -, hrun, -⟩ | ⟨-, -, hfull, -⟩
    · have hn : ¬ t.node.isDummy := fun hd ↦ by
        rw [capacity, if_pos hd] at hroom
        omega
      dsimp only
      rw [hrun hb]
      refine Exec.ends_ok fun l' hl' x t' hx hw ↦ ?_
      obtain rfl := Option.some.inj hl'
      exact hp.grows hC hn hx hw
    · omega

/-! ## Inserting again -/

/-- The values of the old array find room. -/
theorem shrinkLoop_ends (hset : SetsWell put) (hput : Fills put b) {id k i : Nat}
    {vs : Nat → Option Value} (hvs : ∀ j v, vs j = some v → v.tt ≠ .null) (h : Shape t E)
    (hsize : t.arrayId = id → t.sizearray ≤ i)
    (harr : t.arrayId = id → ∀ j : Nat, i ≤ j → (t.array.getD [])[j]? = vs j)
    (hb : t.sizenode ≤ b) (hroom : occupied t +
      need t (∑ j ∈ Finset.range k, cellEntry (i + j) (vs (i + j))) ≤ capacity t) :
    (shrinkLoop put id k i t).Ends
      (Grows t (need t (∑ j ∈ Finset.range k, cellEntry (i + j) (vs (i + j))))) := by
  induction k generalizing i t E with
  | zero => exact Exec.ends_ok (.refl t)
  | succ k ih =>
    have hsum : (∑ j ∈ Finset.range (k + 1), cellEntry (i + j) (vs (i + j))) =
        (∑ j ∈ Finset.range k, cellEntry (i + 1 + j) (vs (i + 1 + j))) + cellEntry i (vs i) := by
      rw [Finset.sum_range_succ', add_zero]
      refine congrArg (· + _) (Finset.sum_congr rfl fun j _ ↦ ?_)
      rw [Nat.add_assoc i 1 j, Nat.add_comm 1 j]
    rw [hsum, need_add] at hroom ⊢
    rw [shrinkLoop]
    refine (Exec.ends_of_ne_timeout (loadOld_ne_timeout t id i)).bind fun v hv ↦ ?_
    obtain ⟨hid, hvi⟩ := loadOld_eq_ok hv
    rw [harr hid i le_rfl] at hvi
    rw [hvi] at hroom ⊢
    by_cases hnil : v.tt = .nil
    · rw [if_pos hnil]
      rw [cellEntry_nil hnil] at hroom ⊢
      exact ih h (fun hid ↦ (hsize hid).trans (Int.ofNat_le.mpr (Nat.le_succ i)))
        (fun hid j hj ↦ harr hid j (by omega)) hb hroom
    rw [if_neg hnil]
    have hused : v.Used := ⟨hnil, hvs i v hvi⟩
    rw [cellEntry_used hused] at hroom ⊢
    have hfits : occupied t + need t {(.int i, ⟨0, .nil⟩)} ≤ capacity t := by
      rw [need_singleton t _ _ v]
      omega
    have hends := hput h hb hfits
    refine (Exec.ends_of_ne_timeout hends.1).bind fun r hins ↦ ?_
    obtain ⟨t₁, o⟩ := r
    cases o with
    | none => exact Exec.ends_undef
    | some l =>
      have hins' := hset h hins
      refine (Exec.ends_of_ne_timeout (loadOld_ne_timeout t₁ id i)).bind fun v' hv' ↦ ?_
      refine (Exec.ends_of_ne_timeout (writeVal_ne_timeout t₁ l v')).bind fun t₂ hw ↦ ?_
      -- the value is still the same
      obtain ⟨hid₁, hvi'⟩ := loadOld_eq_ok hv'
      rw [hins'.frame.array (hid₁.trans hid.symm) i (hsize hid), harr hid i le_rfl, hvi] at hvi'
      obtain rfl := Option.some.inj hvi'
      obtain ⟨t₃, E₁, hw', hf, hshape, -⟩ := hins'.write v hused
      obtain rfl := Except.ok.inj (hw.symm.trans hw')
      have hg : Grows t (need t {(.int i, v)}) t₂ := hends.2 _ hins l rfl _ _ hused hw
      have hle := hg.count
      have hrest := ih (i := i + 1) hshape (fun _ ↦ by
          rw [hg.size]
          exact (hsize hid).trans (Int.ofNat_le.mpr (Nat.le_succ i)))
        (fun hid₂ j hj ↦ by
          have hj' : t.sizearray ≤ (j : Int) := (hsize hid).trans (Int.ofNat_le.mpr (Nat.le_of_succ_le hj))
          rw [hf.array (hid₂.trans hid.symm) j hj', harr hid j (by omega)])
        (hg.sizenode_eq.trans_le hb) (by
          rw [need_congr hg.size, hg.capacity_eq]
          omega)
      rw [need_congr hg.size] at hrest
      refine hrest.mono fun t' ht' ↦ (hg.trans ht').mono ?_
      omega

/-- The values of the old nodes find room. -/
theorem reinsertLoop_ends (hset : SetsWell put) (hput : Fills put b) {old : NodePart} {i : Nat}
    (hold : ∀ j x, j < i → old.load j = .ok x → x.val.tt ≠ .null) (h : Shape t E)
    (hb : t.sizenode ≤ b)
    (hroom : occupied t + need t (∑ j ∈ Finset.range i, entryAt old j) ≤ capacity t) :
    (reinsertLoop put old i t).Ends (Grows t (need t (∑ j ∈ Finset.range i, entryAt old j))) := by
  induction i generalizing t E with
  | zero => exact Exec.ends_ok (.refl t)
  | succ i ih =>
    have hbelow : ∀ j x, j < i → old.load j = .ok x → x.val.tt ≠ .null := fun j x hj ↦
      hold j x (Nat.lt_succ_of_lt hj)
    rw [Finset.sum_range_succ, need_add] at hroom ⊢
    rw [reinsertLoop]
    refine (Exec.ends_of_ne_timeout (load_ne_timeout old i)).bind fun x hx ↦ ?_
    have hentry : entryAt old i = nodeEntry x := by rw [entryAt, hx]
    rw [hentry, nodeEntry] at hroom ⊢
    by_cases hnil : x.val.tt = .nil
    · rw [if_pos hnil] at hroom ⊢
      rw [if_pos hnil]
      exact ih hbelow h hb hroom
    rw [if_neg hnil] at hroom ⊢
    rw [if_neg hnil]
    have hused : x.val.Used := ⟨hnil, hold i x (Nat.lt_succ_self i) hx⟩
    have hfits : occupied t + need t {(x.key, ⟨0, .nil⟩)} ≤ capacity t := by
      rw [need_singleton t _ _ x.val]
      omega
    have hends := hput h hb hfits
    refine (Exec.ends_of_ne_timeout hends.1).bind fun r hins ↦ ?_
    obtain ⟨t₁, o⟩ := r
    cases o with
    | none => exact Exec.ends_undef
    | some l =>
      refine (Exec.ends_of_ne_timeout (writeVal_ne_timeout t₁ l x.val)).bind fun t₂ hw ↦ ?_
      obtain ⟨t₃, E₁, hw', -, hshape, -⟩ := (hset h hins).write x.val hused
      obtain rfl := Except.ok.inj (hw.symm.trans hw')
      have hg : Grows t (need t {(x.key, x.val)}) t₂ := hends.2 _ hins l rfl _ _ hused hw
      have hle := hg.count
      have hrest := ih hbelow hshape (hg.sizenode_eq.trans_le hb) (by
        rw [need_congr hg.size, hg.capacity_eq]
        omega)
      rw [need_congr hg.size] at hrest
      refine hrest.mono fun t' ht' ↦ (hg.trans ht').mono ?_
      omega

/-! ## Rehashes -/

/-- The new nodes. -/
theorem nodeInit_room (hpos : 0 ≤ nhsize) (hlt : nhsize < 2 ^ 64)
    (h : nodeInit A t nhsize = (t', true)) : capacity t' = roundUp nhsize.toNat := by
  unfold nodeInit DlTable.alloc at h
  dsimp only at h
  by_cases hzero : nhsize = 0
  · rw [if_pos hzero] at h
    obtain ⟨rfl, -⟩ := Prod.mk.inj h
    rw [capacity_dummy rfl, hzero]
    rfl
  rw [if_neg hzero] at h
  by_cases hbits : maxBits < ceillog2 64 (nhsize % 2 ^ 64).toNat
  · rw [if_pos hbits] at h
    cases h
  rw [if_neg hbits] at h
  by_cases hok : (!A.fails t.allocs) = true
  · rw [if_pos hok] at h
    obtain ⟨rfl, -⟩ := Prod.mk.inj h
    rw [capacity_nodes rfl, Int.emod_eq_of_lt hpos hlt,
      ceillog2_eq_clog (by omega) (by omega), roundUp, if_neg (by omega)]
    rfl
  · rw [if_neg hok] at h
    cases h

theorem growArray_ne_timeout : growArray A t nasize ≠ Exec.timeout := by
  unfold growArray
  split
  · split
    · exact nofun
    · split
      · split <;> exact nofun
      · exact nofun
  · exact nofun

/-- The values of the array beyond its end find room. -/
theorem shrinkArray_ends (hset : SetsWell put) (hput : Fills put b) (ha : ArrayOk t)
    (hid : t.arrayId ≤ t.allocs) (hc : Chains t 0) (hsize : t.sizearray = max oldasize nasize)
    (hpos : 0 ≤ nasize) (hb : t.sizenode ≤ b)
    (hroom : need { t with sizearray := nasize } (arrayEntries t) ≤ capacity t) :
    (shrinkArray put oldasize nasize t).Ends (Grows { t with sizearray := nasize }
      (need { t with sizearray := nasize } (arrayEntries t))) := by
  unfold shrinkArray
  split_ifs with hlt
  · rw [max_eq_left hlt.le] at hsize
    have ha' : ArrayOk { t with sizearray := nasize } := fun hp ↦ by
      obtain ⟨vs, hvs, hlen, htags⟩ := ha (by omega)
      exact ⟨vs, hvs, by dsimp only; omega, htags⟩
    have htags : ∀ (j : Nat) (v : Value), (t.array.getD [])[j]? = some v → v.tt ≠ .null :=
      fun j v hv ↦ by
        obtain ⟨vs, hvs, -, htags⟩ := ha (by omega)
        rw [hvs] at hv
        exact htags v (List.mem_of_getElem? hv)
    have hnone : occupied { t with sizearray := nasize } = 0 :=
      (hc.congr_array nasize t.array).occupied_eq
    rw [arrayEntries_split hsize hlt.le hpos, need_add] at hroom ⊢
    refine (shrinkLoop_ends hset hput htags (shape_array ha' hid (hc.congr_array nasize t.array))
      (fun _ ↦ (Int.toNat_of_nonneg hpos).ge) (fun _ _ _ ↦ rfl) hb ?_).mono fun t' ht' ↦
        ht'.mono (Nat.le_add_left _ _)
    rw [hnone]
    exact (Nat.zero_add _).trans_le ((Nat.le_add_left _ _).trans hroom)
  · rw [max_eq_right (not_lt.mp hlt)] at hsize
    exact Exec.ends_ok ⟨hsize, rfl, rfl, Nat.le_add_right _ _⟩

/-- The values of the old nodes find room. -/
theorem reinsert_ends (hset : SetsWell put) (hput : Fills put b) (hc : Chains t C) (h : Shape t' E)
    (hb : t'.sizenode ≤ b) (hroom : occupied t' + need t' (nodeEntries C) ≤ capacity t') :
    (reinsert put t.node t.sizenode t').Ends (Grows t' (need t' (nodeEntries C))) := by
  unfold reinsert
  cases hc with
  | dummy hn =>
    rw [hn]
    exact Exec.ends_ok (.refl t')
  | nodes hn hl =>
    rw [hn, ← hl.sum_entryAt]
    rw [← hl.sum_entryAt] at hroom
    exact reinsertLoop_ends hset hput (fun j x hj hx ↦ hl.load_ne_null hj hx) h hb hroom

/-- All values find room if there are enough nodes. -/
theorem resize_ends (hset : SetsWell put) (hput : Fills put b) (h : Shape t E)
    (hb : 2 ^ maxBits ≤ b) (hpos : 0 ≤ nasize) (hnode : 0 ≤ nhsize) (hlt : nhsize < 2 ^ 64)
    (hroom : (storedKeys t).countP (fun k ↦ ¬ k.Fits nasize.toNat) ≤ roundUp nhsize.toNat) :
    (resize A put t nasize nhsize).Ends fun r ↦ r.2 = true → r.1.sizearray = nasize ∧
      capacity r.1 = roundUp nhsize.toNat ∧ r.1.sizenode ≤ b ∧
        occupied r.1 ≤ (storedKeys t).countP fun k ↦ ¬ k.Fits nasize.toNat := by
  unfold resize
  refine (Exec.ends_of_ne_timeout growArray_ne_timeout).bind fun ⟨t₁, ok₁⟩ hgrow ↦ ?_
  cases ok₁ with
  | false => exact Exec.ends_ok nofun
  | true =>
    dsimp only
    obtain ⟨ha₁, hentries, hf₁, hid₁, hsize₁⟩ := growArray_spec h.array h.id hgrow
    rcases hinit : nodeInit A t₁ nhsize with ⟨t₂, ok₂⟩
    cases ok₂ with
    | false => exact Exec.ends_ok nofun
    | true =>
      dsimp only
      have hcap := nodeInit_room hnode hlt hinit
      obtain ⟨hc₂, p, k, c, l, rfl, hle, hbits⟩ := nodeInit_spec hinit
      obtain ⟨C, hC, rfl, -⟩ := h.nodes
      have hstored := hC.storedKeys_eq
      rw [Multiset.map_add] at hstored
      rw [hstored, Multiset.countP_add] at hroom ⊢
      have hb₂ : 2 ^ l ≤ b := (Nat.pow_le_pow_right (by decide) hbits).trans hb
      have hnone := hc₂.occupied_eq
      rw [nodeEntries, Multiset.zero_bind, Multiset.card_zero] at hnone
      have hentries₂ : arrayEntries
          { t₁ with node := p, lastfree := k, allocs := c, lsizenode := l } = arrayEntries t :=
        (arrayEntries_congr rfl rfl).trans hentries
      have hneed : need { t₁ with
          node := p, lastfree := k, allocs := c, lsizenode := l, sizearray := nasize }
            (arrayEntries t) = ((arrayEntries t).map Prod.fst).countP fun k ↦ ¬ k.Fits nasize.toNat :=
        rfl
      have hid₂ : ({ t₁ with node := p, lastfree := k, allocs := c, lsizenode := l } : DlTable).arrayId
          ≤ c := hid₁.trans hle
      have ha₂ : ArrayOk { t₁ with node := p, lastfree := k, allocs := c, lsizenode := l } := ha₁
      have hends := shrinkArray_ends hset hput ha₂ hid₂ hc₂ hsize₁ hpos
        hb₂ (by rw [hentries₂, hneed]; omega)
      refine (Exec.ends_of_ne_timeout hends.1).bind fun t₃ hshrink ↦ ?_
      have hg := hends.2 t₃ hshrink
      rw [hentries₂, hneed] at hg
      have hcount := hg.count.trans_eq (Nat.add_right_cancel_iff.mpr hnone)
      have hcap₃ := hg.capacity_eq.trans hcap
      have hneed₃ : need t₃ (nodeEntries C) =
          ((nodeEntries C).map Prod.fst).countP fun k ↦ ¬ k.Fits nasize.toNat :=
        need_congr (t := { t₁ with sizearray := nasize }) hg.size _
      obtain ⟨E₃, hshape₃, -, -⟩ := shrinkArray_spec hset ha₂ hid₂ hc₂ hsize₁ hpos hshrink
      refine (reinsert_ends hset hput hC hshape₃ (hg.sizenode_eq.trans_le hb₂) ?_).bind
        fun t₄ ht₄ ↦ Exec.ends_ok fun _ ↦ ?_
      · rw [hneed₃, hcap₃]
        omega
      · refine ⟨ht₄.size.trans hg.size, ht₄.capacity_eq.trans hcap₃,
          (ht₄.sizenode_eq.trans hg.sizenode_eq).trans_le hb₂, ?_⟩
        have hcount₄ := ht₄.count
        rw [hneed₃] at hcount₄
        dsimp only
        omega

/-- The sizes can be computed for a table that is well formed. -/
theorem Shape.exists_newSizes (h : Shape t E) (ek : Key) : ∃ r, newSizes t ek = .ok r := by
  obtain ⟨C, hC, -, -⟩ := h.nodes
  refine Table.exists_newSizes (fun j hj ↦ ?_) (fun j hj ↦ ?_) ek
  · obtain ⟨-, v, -, -, -, hload, -⟩ := array_focus h.array ⟨hj, Int.natCast_nonneg j⟩
    exact ⟨v, hload⟩
  · cases hC with
    | dummy hn hl =>
      rw [DlTable.sizenode, hl] at hj
      exact ⟨_, (loadNode_dummy hn).trans (if_pos (by omega))⟩
    | nodes hn hl =>
      rcases hl.cases hj with ⟨v, F', rfl⟩ | ⟨L₁, y, L₂, C', rfl, rfl⟩
      · exact ⟨_, loadNode_eq hn hl.holds_free⟩
      · exact ⟨_, hl.load hn⟩

theorem card_arrayNumbers_le (t : DlTable) (a b : Nat) : (arrayNumbers t a b).card ≤ b - a := by
  have hone : ∀ i v, (cellNumber i v).card ≤ 1 := fun i v ↦ by
    unfold cellNumber
    split
    · split_ifs
      · exact Nat.zero_le _
      · exact le_rfl
    · exact Nat.zero_le _
  rw [arrayNumbers, Multiset.card_sum]
  refine (Finset.sum_le_sum fun i _ ↦ hone i _).trans_eq ?_
  simp

/-- There are not too many keys for a number of 64 bits. -/
theorem leftover_lt (hbits : t.lsizenode ≤ maxBits) (m : Nat) : leftover t ek m < 2 ^ 64 := by
  have harr := card_arrayNumbers_le t 0 (arrayEnd t)
  have hend : arrayEnd t ≤ 2 ^ maxBits := min_le_right _ _
  have hnodes := card_allNodes_le t
  have hpow : t.sizenode ≤ 2 ^ maxBits := Nat.pow_le_pow_right (by decide) hbits
  have hmax : 2 ^ maxBits + 2 ^ maxBits + 1 < 2 ^ 64 := by decide
  rw [leftover, nodeKeys, Multiset.card_cons, Multiset.card_map]
  omega

/-- A rehash that leaves enough nodes ends with one for the key. -/
theorem rehash_ends (hset : SetsWell put) (hput : Fills put b) (h : Shape t E)
    (hbits : t.lsizenode ≤ maxBits) (hb : 2 ^ maxBits ≤ b) (hroom : HasRoom t key) :
    (rehash A put t key).Ends fun r ↦ r.2 = true → r.1.sizenode ≤ b ∧
      occupied r.1 + need r.1 {(key, ⟨0, .nil⟩)} ≤ capacity r.1 := by
  obtain ⟨⟨nasize, nhsize⟩, hsizes⟩ := h.exists_newSizes key
  have hout := (room_iff hsizes).mpr hroom
  obtain ⟨m, rfl, -, -, rfl⟩ := newSizes_leftover hsizes
  rw [outside, Multiset.countP_cons] at hout
  rw [rehash, hsizes, Exec.ok_bind]
  have hlt : ((leftover t key m : Nat) : Int) < 2 ^ 64 := by
    exact_mod_cast leftover_lt hbits m
  refine (resize_ends hset hput h hb (Int.natCast_nonneg m) (Int.natCast_nonneg _) hlt
    (by omega)).mono fun r hr hok ↦ ?_
  obtain ⟨hsize, hcap, hnum, hocc⟩ := hr hok
  refine ⟨hnum, ?_⟩
  have hneed : need r.1 {(key, ⟨0, .nil⟩)} =
      if ¬ key.Fits (Int.toNat m) then 1 else 0 := by
    rw [need, hsize, Multiset.map_singleton, ← Multiset.cons_zero, Multiset.countP_cons,
      Multiset.countP_zero, Nat.zero_add]
  omega

/-- `dl_newkey_l` needs no further rehash if the first one leaves enough nodes. -/
theorem makeRoom_ends (h : Shape t E) (hbits : t.lsizenode ≤ maxBits) (hb : 2 ^ maxBits ≤ fuel)
    (hroom : HasRoom t key) :
    (makeRoom A (setL A fuel (depth + 1)) t key).Ends fun _ ↦ True := by
  have hset : SetsWell (setL A fuel (depth + 1)) := setL_spec A fuel (depth + 1)
  have hput : Fills (setL A fuel (depth + 1)) fuel := setL_fills A fuel depth
  have hends := rehash_ends (A := A) hset hput h hbits hb hroom
  refine (Exec.ends_of_ne_timeout hends.1).bind fun ⟨t₁, ok⟩ hre ↦ ?_
  cases ok with
  | false => exact Exec.ends_ok trivial
  | true =>
    obtain ⟨hnum, hcount⟩ := hends.2 _ hre rfl
    obtain ⟨E₁, h₁, -, -⟩ := rehash_spec hset h hre
    exact (hput h₁ hnum hcount).mono fun _ _ ↦ trivial

end Dlbase.Table
