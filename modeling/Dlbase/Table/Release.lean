import Dlbase.Table.Refine

/-!
# Pointers are released once

Each call keeps the pointers of the table, apart from the one that it writes and those that it
releases; in the end all of them are released.
-/

namespace Dlbase.Table

open Cmem

/-- The pointer at a location, if any. -/
def pointersAt (t : DlTable) (l : Loc) : Multiset Int :=
  match readVal t l with
  | .ok v => ↑v.pointers
  | .error _ => 0

/-- The pointers in a table. -/
def stored (t : DlTable) : Multiset Int :=
  (∑ i ∈ Finset.range t.sizearray.toNat, pointersAt t (.array i)) +
    ∑ i ∈ Finset.range t.sizenode, pointersAt t (.node i)

open Classical in
/-- The pointer that a call writes, if any. -/
noncomputable def written (t : DlTable) : Call → Status → Multiset Int
  | .set c (.void p), .ok => if SameBits t c p then 0 else {p}
  | _, _ => 0

/-- The key of the call is an integer. -/
def Call.ForIndex (call : Call) : Prop := ∃ k, call.key = .int k

/-- The pointers of entries. -/
def pointersOf (E : Entries) : Multiset Int := E.bind fun e ↦ ↑e.2.pointers

/-- There are strings at the addresses. -/
structure Alive (m : Mem) (H : Multiset Nat) : Prop where
  /-- No address is there twice. -/
  nodup : H.Nodup
  /-- There are strings, perhaps without characters. -/
  alive : ∀ a ∈ H, m a ≠ none

variable {A : Malloc} {t t' : DlTable} {n : Objects Node} {C : Multiset (List Item)}
  {F : Multiset (Nat × Int)} {E E' R : Entries} {k : Key} {v x : Value} {c : Content} {d : Datum}
  {m : Mem} {H : Multiset Nat} {a fuel depth : Nat} {st : Status} {call : Call}
  {hist : List (Call × Status)}

/-! ## Entries -/

theorem pointersOf_cons (k : Key) (v : Value) (E : Entries) :
    pointersOf ((k, v) ::ₘ E) = ↑v.pointers + pointersOf E := Multiset.cons_bind _ _ _

theorem pointersOf_add (E R : Entries) : pointersOf (E + R) = pointersOf E + pointersOf R :=
  Multiset.add_bind _ _ _

theorem pointers_nil (hv : v.tt = .nil) : v.pointers = [] := by
  rw [Value.pointers, hv]
  rfl

theorem pointersOf_slot (k : Key) (v : Value) : pointersOf (slotEntries k v) = ↑v.pointers := by
  by_cases hv : v.tt = .nil
  · rw [slotEntries_nil hv, pointers_nil hv]
    rfl
  · rw [slotEntries_used hv]
    exact Multiset.singleton_bind _ _

theorem sum_bind {α β : Type} (s : Finset Nat) (f : Nat → Multiset α) (g : α → Multiset β) :
    (∑ i ∈ s, f i).bind g = ∑ i ∈ s, (f i).bind g := by
  induction s using Finset.induction_on with
  | empty => rfl
  | insert i s hi ih => rw [Finset.sum_insert hi, Finset.sum_insert hi, Multiset.add_bind, ih]

theorem pointersOf_cell (i : Nat) (v : Value) : pointersOf (cellEntry i (some v)) = ↑v.pointers :=
  pointersOf_slot (.int i) v

theorem pointersOf_node (x : Node) : pointersOf (nodeEntry x) = ↑x.val.pointers :=
  pointersOf_slot x.key x.val

theorem pointersAt_node (t : DlTable) (i : Nat) :
    pointersAt t (.node i) = pointersOf (entryAt t.node i) := by
  rcases hload : t.node.load i with e | x
  · have hread : readVal t (.node i) = .error e := by
      rw [readVal, loadNode, hload]
      rfl
    rw [pointersAt, hread, entryAt, hload]
    rfl
  · have hread : readVal t (.node i) = .ok x.val := by
      rw [readVal, loadNode, hload]
      rfl
    rw [pointersAt, hread, entryAt, hload]
    exact (pointersOf_node x).symm

/-- The pointers in the table are those of its entries. -/
theorem Shape.stored_eq (h : Shape t E) : stored t = pointersOf E := by
  obtain ⟨C, hC, rfl, -⟩ := h.nodes
  have hnodes : (∑ i ∈ Finset.range t.sizenode, pointersAt t (.node i)) =
      pointersOf (nodeEntries C) := by
    have hall : (∑ i ∈ Finset.range t.sizenode, pointersAt t (.node i)) =
        pointersOf (allNodes t) := by
      rw [allNodes, pointersOf, sum_bind]
      exact Finset.sum_congr rfl fun i _ ↦ pointersAt_node t i
    cases hC with
    | dummy hn hl =>
      rw [hall, allNodes, DlTable.sizenode, hl, hn]
      rfl
    | nodes hn hl => rw [hall, hl.allNodes_eq hn]
  have harray : (∑ i ∈ Finset.range t.sizearray.toNat, pointersAt t (.array i)) =
      pointersOf (arrayEntries t) := by
    rw [arrayEntries, pointersOf, sum_bind]
    refine Finset.sum_congr rfl fun i hi ↦ ?_
    have hlt := Finset.mem_range.mp hi
    obtain ⟨vs, v, -, hvs, hv, hload, -⟩ := array_focus h.array (i := i) ⟨by omega, by omega⟩
    rw [hvs, Option.getD_some, hv, pointersAt, readVal, hload]
    exact (pointersOf_cell i v).symm
  rw [stored, hnodes, harray, pointersOf_add]

/-- A value that stands for a pointer holds it. -/
theorem pointers_datum (hx : x.datum m = some d) :
    (↑x.pointers : Multiset Int) = match d with | .void p => {p} | _ => 0 := by
  unfold Value.datum at hx
  unfold Value.pointers
  cases htt : x.tt with
  | void =>
    rw [htt] at hx
    obtain rfl := Option.some.inj hx
    rfl
  | int =>
    rw [htt] at hx
    obtain rfl := Option.some.inj hx
    rfl
  | str =>
    rw [htt] at hx
    obtain ⟨s, -, rfl⟩ := Option.map_eq_some_iff.mp hx
    rfl
  | nil =>
    rw [htt] at hx
    cases hx
  | null =>
    rw [htt] at hx
    cases hx

/-! ## Calls -/

theorem Writes.released (hw : Writes t E c d t' st E') (h : Shape t E) (h' : Shape t' E') :
    ∃ w : List Int, t'.voids = w ++ t.voids ∧
      stored t + written t (.set c d) st = stored t' + w := by
  cases hw with
  | same hbits hd =>
    subst hd
    refine ⟨[], rfl, ?_⟩
    rw [written, if_pos hbits]
    rfl
  | @put _ k v x R hE hbefore hk hx hrest hvoids hsame hbits =>
    subst hE
    have hwritten : written t (.set c d) .ok = ↑x.pointers := by
      rw [pointers_datum hx]
      cases d with
      | void p => exact if_neg (hbits p rfl)
      | int n => rfl
      | str s => rfl
    refine ⟨v.pointers, hvoids, ?_⟩
    rw [h.stored_eq, h'.stored_eq, pointersOf_add, pointersOf_slot, pointersOf_cons, hwritten]
    abel
  | full hvoids hsame =>
    refine ⟨[], hvoids, ?_⟩
    have hnone : written t (.set c d) .error = 0 := by cases d <;> rfl
    rw [h.stored_eq, h'.stored_eq, hnone]
    rfl

theorem Deletes.released (hd : Deletes t E c t' E') (h : Shape t E) (h' : Shape t' E') :
    ∃ w : List Int, t'.voids = w ++ t.voids ∧ stored t = stored t' + w := by
  cases hd with
  | none => exact ⟨[], rfl, (add_zero _).symm⟩
  | @found _ k v R e hE hk hb heq hfresh hvoids hsame =>
    subst hE
    refine ⟨v.pointers, hvoids, ?_⟩
    rw [h.stored_eq, h'.stored_eq, pointersOf_add, pointersOf_slot, add_comm]

/-- A call keeps the pointers, apart from those that it writes or releases. -/
theorem Call.released (hA : ∀ i, A.fails i = false) (h : Exact t E) (hsafe : Safe t call)
    (hrun : call.run A fuel depth t = .ok (t', st)) : ∃ w : List Int, t'.voids = w ++ t.voids ∧
      stored t + written t call st = stored t' + w := by
  cases call with
  | set c d =>
    obtain ⟨E', hg, hs⟩ := setter_spec hA h.toGood hrun
    exact (hs.writes h hsafe).1.released h.shape hg.shape
  | del c =>
    obtain ⟨t₁, hdel, hrun⟩ := Exec.bind_eq_ok.mp hrun
    obtain ⟨rfl, rfl⟩ := Prod.mk.inj (Except.ok.inj hrun)
    obtain ⟨E', hg, hd⟩ := deleter_spec h.toGood hdel
    obtain ⟨w, hvoids, hw⟩ := hd.released h.shape hg.shape
    exact ⟨w, hvoids, (add_zero _).trans hw⟩

/-! ## Destroying the table -/

namespace Alive

/-- A string is freed. -/
theorem free (h : Alive m ({a} + H)) : ∃ m', m.free a = .ok m' ∧ Alive m' H := by
  obtain ⟨hnot, hn⟩ := Multiset.nodup_cons.mp h.nodup
  have ha : m a ≠ none := h.alive a (Multiset.mem_cons_self _ _)
  refine ⟨_, if_neg ha, hn, fun b hb ↦ ?_⟩
  have hne : b ≠ a := fun heq ↦ hnot (heq ▸ hb)
  rw [Function.update_of_ne hne]
  exact h.alive b (Multiset.mem_cons_of_mem hb)

/-- A value is released. -/
theorem freedVal (h : Alive m (v.addrs + H)) : ∃ m', Table.freedVal m v = .ok m' ∧ Alive m' H := by
  unfold Table.freedVal
  by_cases hv : v.tt = .str
  · rw [if_pos hv]
    rw [Value.addrs, if_pos hv] at h
    exact h.free
  · rw [if_neg hv]
    rw [Value.addrs, if_neg hv, zero_add] at h
    exact ⟨m, rfl, h⟩

/-- A key is freed. -/
theorem freedKey (h : Alive m (k.addrs + H)) : ∃ m', Table.freedKey m k = .ok m' ∧ Alive m' H := by
  cases k with
  | str p => exact h.free
  | int n => exact ⟨m, rfl, zero_add H ▸ h⟩
  | null => exact ⟨m, rfl, zero_add H ▸ h⟩
  | nil => exact ⟨m, rfl, zero_add H ▸ h⟩

end Alive

theorem Owns.alive_owned (h : Owns m E) : Alive m (owned E) :=
  ⟨h.nodup, fun a ha hnone ↦ by
    obtain ⟨s, hs⟩ := h.alive a ha
    cases hs.symm.trans hnone⟩

theorem owned_slot (k : Key) (v : Value) :
    owned (slotEntries k v) = if v.tt = .nil then 0 else k.addrs + v.addrs := by
  by_cases hv : v.tt = .nil
  · rw [slotEntries_nil hv, if_pos hv]
    rfl
  · rw [slotEntries_used hv, if_neg hv]
    exact Multiset.singleton_bind _ _

/-- The loop over the array releases its values. -/
theorem destroyArray_spec {vs : List Value} (ha : t.array = some vs) {j i e : Nat}
    (hlen : e ≤ vs.length) (he : i + j = e)
    (h : Alive t.mem ((∑ b ∈ Finset.Ico i e, owned (cellEntry b vs[b]?)) + H)) :
    ∃ (m : Mem) (w : List Int), destroyArray j i t = .ok { t with mem := m, voids := w ++ t.voids } ∧
      (↑w : Multiset Int) = (∑ b ∈ Finset.Ico i e, pointersOf (cellEntry b vs[b]?)) ∧
      Alive m H := by
  induction j generalizing i t with
  | zero =>
    obtain rfl : i = e := he
    rw [Finset.Ico_self, Finset.sum_empty, zero_add] at h
    exact ⟨t.mem, [], rfl, by rw [Finset.Ico_self]; rfl, h⟩
  | succ j ih =>
    have hi : i < e := by omega
    obtain ⟨v, hv⟩ : ∃ v, vs[i]? = some v := ⟨vs[i], List.getElem?_eq_getElem (by omega)⟩
    rw [Finset.sum_eq_sum_Ico_succ_bot hi, hv, add_assoc] at h
    rw [Finset.sum_eq_sum_Ico_succ_bot hi, hv, pointersOf_cell]
    have hslot : owned (cellEntry i (some v)) = v.addrs := by
      refine (owned_slot (.int i) v).trans ?_
      split_ifs with hnil
      · rw [Value.addrs, hnil]
        rfl
      · exact zero_add _
    rw [hslot] at h
    obtain ⟨m₁, hm₁, h₁⟩ := h.freedVal
    obtain ⟨m, w, hrun, hw, hm⟩ := ih (t := { t with mem := m₁, voids := v.pointers ++ t.voids }) ha
      (by omega) h₁
    refine ⟨m, w ++ v.pointers, ?_, ?_, hm⟩
    · rw [destroyArray, loadArray_eq ha hv, Exec.ok_bind, release_eq, hm₁, Exec.ok_bind,
        Exec.ok_bind, hrun, List.append_assoc]
    · rw [← Multiset.coe_add, hw, add_comm]

/-- The loop over the nodes frees their keys and releases their values. -/
theorem destroyNodes_spec {j i e : Nat} (he : i + j = e)
    (hload : ∀ b < e, ∃ x, t.node.load b = .ok x ∧ (x.val.tt = .nil → x.key.addrs = 0))
    (h : Alive t.mem ((∑ b ∈ Finset.Ico i e, owned (entryAt t.node b)) + H)) :
    ∃ (m : Mem) (w : List Int), destroyNodes j i t = .ok { t with mem := m, voids := w ++ t.voids } ∧
      (↑w : Multiset Int) = (∑ b ∈ Finset.Ico i e, pointersOf (entryAt t.node b)) ∧
      Alive m H := by
  induction j generalizing i t with
  | zero =>
    obtain rfl : i = e := he
    rw [Finset.Ico_self, Finset.sum_empty, zero_add] at h
    exact ⟨t.mem, [], rfl, by rw [Finset.Ico_self]; rfl, h⟩
  | succ j ih =>
    have hi : i < e := by omega
    obtain ⟨x, hx, hkey⟩ := hload i hi
    have hentry : entryAt t.node i = nodeEntry x := by rw [entryAt, hx]
    rw [Finset.sum_eq_sum_Ico_succ_bot hi, hentry, add_assoc] at h
    rw [Finset.sum_eq_sum_Ico_succ_bot hi, hentry, pointersOf_node]
    have hslot : owned (nodeEntry x) = x.key.addrs + x.val.addrs := by
      refine (owned_slot x.key x.val).trans ?_
      split_ifs with hnil
      · rw [hkey hnil, Value.addrs, hnil]
        rfl
      · rfl
    rw [hslot, add_assoc] at h
    obtain ⟨m₁, hm₁, h₁⟩ := h.freedKey
    obtain ⟨m₂, hm₂, h₂⟩ := h₁.freedVal
    obtain ⟨m, w, hrun, hw, hm⟩ := ih (t := { t with mem := m₂, voids := x.val.pointers ++ t.voids })
      (by omega) hload h₂
    refine ⟨m, w ++ x.val.pointers, ?_, ?_, hm⟩
    · have hload' : loadNode t i = .ok x := hx
      rw [destroyNodes, hload', Exec.ok_bind, freeKey_eq, hm₁, Exec.ok_bind, Exec.ok_bind, release_eq,
        hm₂, Exec.ok_bind, Exec.ok_bind, hrun, List.append_assoc]
    · rw [← Multiset.coe_add, hw, add_comm]

theorem destroyArray_all (ha : ArrayOk t) (h : Alive t.mem (owned (arrayEntries t) + H)) :
    ∃ (m : Mem) (w : List Int),
      destroyArray t.sizearray.toNat 0 t = .ok { t with mem := m, voids := w ++ t.voids } ∧
      (↑w : Multiset Int) = pointersOf (arrayEntries t) ∧ Alive m H := by
  rcases Nat.eq_zero_or_pos t.sizearray.toNat with hzero | hpos
  · have hnone : arrayEntries t = 0 := by
      rw [arrayEntries, hzero]
      rfl
    rw [hnone] at h
    rw [hzero, hnone]
    exact ⟨t.mem, [], rfl, rfl, zero_add H ▸ h⟩
  · obtain ⟨vs, hvs, hlen, -⟩ := ha (by omega)
    have hsum : arrayEntries t = ∑ b ∈ Finset.Ico 0 t.sizearray.toNat, cellEntry b vs[b]? := by
      rw [arrayEntries, hvs, Finset.range_eq_Ico]
      rfl
    rw [hsum, owned, sum_bind] at h
    rw [hsum, pointersOf, sum_bind]
    exact destroyArray_spec hvs (by omega) (Nat.zero_add _) h

theorem destroyNodes_all (hc : Chains t C) {ws : List Int} (h : Alive m (owned (nodeEntries C))) :
    ∃ (m' : Mem) (w : List Int),
      destroyNodes t.sizenode 0 { t with mem := m, voids := ws } =
        .ok { t with mem := m', voids := w ++ ws } ∧
      (↑w : Multiset Int) = pointersOf (nodeEntries C) := by
  have hnodes : owned (allNodes t) = owned (nodeEntries C) ∧
      pointersOf (allNodes t) = pointersOf (nodeEntries C) ∧
      ∀ b < t.sizenode, ∃ x, t.node.load b = .ok x ∧ (x.val.tt = .nil → x.key.addrs = 0) := by
    cases hc with
    | dummy hn hl =>
      rw [allNodes, DlTable.sizenode, hl, hn]
      refine ⟨rfl, rfl, fun b hb ↦ ⟨dummynode, if_pos (Nat.lt_one_iff.mp hb), fun _ ↦ rfl⟩⟩
    | nodes hn hl =>
      refine ⟨congrArg _ (hl.allNodes_eq hn), congrArg _ (hl.allNodes_eq hn), fun b hb ↦ ?_⟩
      rcases hl.cases hb with ⟨v, F', rfl⟩ | ⟨L₁, y, L₂, C', rfl, rfl⟩
      · exact ⟨_, loadNode_eq hn hl.holds_free, fun _ ↦ rfl⟩
      · exact ⟨_, hl.load hn, fun hnil ↦
          absurd hnil (hl.used _ (Multiset.mem_cons_self _ _) y (by simp)).1⟩
  obtain ⟨howned, hpointers, hload⟩ := hnodes
  rw [← howned, allNodes, Finset.range_eq_Ico, owned, sum_bind, ← add_zero (Finset.sum _ _)] at h
  obtain ⟨m', w, hrun, hw, -⟩ := destroyNodes_spec (t := { t with mem := m, voids := ws })
    (Nat.zero_add _) hload h
  refine ⟨m', w, hrun, ?_⟩
  rw [hw, ← hpointers, allNodes, Finset.range_eq_Ico, pointersOf, sum_bind]
  rfl

/-- `dl_table_destroy` releases all pointers. -/
theorem destroy_spec (h : Good t E) : ∃ (m : Mem) (w : List Int),
    destroy t = .ok { t with mem := m, voids := w ++ t.voids } ∧ (↑w : Multiset Int) = stored t := by
  rw [h.shape.stored_eq]
  obtain ⟨C, hC, rfl, -⟩ := h.shape.nodes
  have halive := h.owns.alive_owned
  rw [owned, Multiset.add_bind] at halive
  obtain ⟨m₁, w₁, hrun₁, hw₁, h₁⟩ := destroyArray_all h.shape.array halive
  obtain ⟨m₂, w₂, hrun₂, hw₂⟩ := destroyNodes_all hC h₁
  refine ⟨m₂, w₂ ++ w₁, ?_, ?_⟩
  · rw [destroy, hrun₁, Exec.ok_bind]
    rw [List.append_assoc]
    exact hrun₂
  · rw [← Multiset.coe_add, hw₁, hw₂, add_comm, pointersOf_add]

/-- The pointers of a table whose keys are integers are kept by each call, apart from the one that is
written and those that are released, and they are released in the end. -/
theorem released_once (hA : ∀ i, A.fails i = false)
    (hrun : Run A (fun _ call ↦ call.ForIndex) t hist) :
    (∀ call t' st fuel depth, Call.ForIndex call → call.run A fuel depth t = .ok (t', st) →
      ∃ w : List Int, t'.voids = w ++ t.voids ∧ stored t + written t call st = stored t' + w) ∧
      ∃ t' w, destroy t = .ok t' ∧ t'.voids = w ++ t.voids ∧ (↑w : Multiset Int) = stored t := by
  have hin : ∀ call : Call, call.ForIndex → call.key.In ∅ := fun call ⟨k, hk⟩ ↦ by
    rw [hk]
    trivial
  have hS : PrefixFree ∅ := fun s hs ↦ absurd hs (Set.notMem_empty s)
  obtain ⟨E, h, hK, -⟩ := hrun.exact_of_prefixFree hA hS fun _ call ↦ hin call
  refine ⟨fun call t' st fuel depth hcall hstep ↦ ?_, ?_⟩
  · exact Call.released hA h (hS.told h.shape hK (hin call hcall)).safe hstep
  · obtain ⟨m, w, hdestroy, hw⟩ := destroy_spec h.toGood
    exact ⟨_, w, hdestroy, rfl, hw⟩

/-- A pointer that has been stored is released in the end. -/
theorem released_once_five : ∃ t, Run .reliable (fun _ call ↦ call.ForIndex) t
    [(.set (.int (-1)) (.void 5), .ok)] ∧ t.voids = [] ∧ stored t = {5} ∧
      ∃ t' w, destroy t = .ok t' ∧ t'.voids = w ++ t.voids ∧ (↑w : Multiset Int) = stored t := by
  have hrun : ∃ t, Run .reliable (fun _ call ↦ call.ForIndex) t
      [(.set (.int (-1)) (.void 5), .ok)] ∧ t.voids = [] ∧ stored t = {5} :=
    ⟨_, .call (run_oneNode _) ⟨-1, rfl⟩ (show Call.run .reliable 1 1 oneNode
      (.set (.int (-1)) (.void 5)) = .ok (_, .ok) from rfl), rfl, rfl⟩
  obtain ⟨t, hrun, hvoids, hstored⟩ := hrun
  exact ⟨t, hrun, hvoids, hstored, (released_once (fun _ ↦ rfl) hrun).2⟩

end Dlbase.Table
