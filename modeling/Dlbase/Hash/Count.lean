import Dlbase.Hash.Runs

/-!
# The number of elements

`el_sum` counts the values that are set.  Each path of `dl_hash_set` that returns `DL_OK` adds one
to it, and nothing else changes it: what `dl_hash_del` frees stays counted.

Here nothing is assumed about the keys, so that one may be found under another one.
-/

namespace Dlbase.Hash

open Cmem

/-- A `dl_hash` with its field `el_sum`. -/
structure Counted where
  /-- The other fields. -/
  table : Table
  /-- The number of values that have been set. -/
  elSum : Int

/-- `dl_hash_init`. -/
def Counted.init (m : Mem Val) (node slot : Nat) (list : Bool) : Counted :=
  ⟨Hash.init m node slot list, 0⟩

section Model

variable (alloc : Allocator (Obj Val))

/-- `dl_hash_set`, with `h->el_sum++`, which must not overflow. -/
def Counted.set (fuel : Nat) (h : Counted) (key : List UInt8) (v : Arg) :
    Exec (Counted × Status) := do
  let (t, st) ← Hash.set alloc fuel h.table key v
  match st with
  | .ok => if h.elSum + 1 < 2 ^ 31 then pure (⟨t, h.elSum + 1⟩, .ok) else Exec.undef
  | .again => pure (⟨t, h.elSum⟩, .again)

/-- `dl_hash_del`. -/
def Counted.del (fuel : Nat) (h : Counted) (key : List UInt8) : Exec Counted := do
  let t ← Hash.del fuel h.table key
  pure ⟨t, h.elSum⟩

/-- The setters with a name that ends in `_rep`. -/
def Counted.setRep (fuel : Nat) (h : Counted) (key : List UInt8) (v : Arg) :
    Exec (Counted × Status) := do
  let h ← h.del fuel key
  h.set alloc fuel key v

/-- What a call does. -/
def Call.runCounted (fuel : Nat) (h : Counted) (key : List UInt8) : Call → Exec (Counted × Status)
  | set v => h.set alloc fuel key v
  | rep v => h.setRep alloc fuel key v
  | del => do
    let h ← h.del fuel key
    pure (h, .ok)

end Model

/-- The number of values from the pointer on. -/
def countValues : Nat → Mem Val → Option Nat → Exec Nat
  | 0, _, _ => Exec.timeout
  | _ + 1, _, none => .ok 0
  | fuel + 1, m, some a => do
    let v ← loadValue m (some a)
    let n ← countValues fuel m v.next
    pure (n + 1)

/-- The number of values of the nodes from the pointer on. -/
def countChain : Nat → Mem Val → Option Nat → Exec Nat
  | 0, _, _ => Exec.timeout
  | _ + 1, _, none => .ok 0
  | fuel + 1, m, some a => do
    let node ← loadNode m (some a)
    let further ← countValues fuel m node.v.next
    let n ← countChain fuel m node.next
    pure (1 + further + n)

/-- The number of values in the slots from an address on. -/
def countSlots (fuel : Nat) (m : Mem Val) : Nat → Nat → Exec Nat
  | _, 0 => .ok 0
  | a, n + 1 => do
    let node ← loadNode m (some a)
    let c ← if node.v.v = none then pure 0 else countChain fuel m (some a)
    let rest ← countSlots fuel m (a + 1) n
    pure (c + rest)

/-- The number of values in the table. -/
def entriesHeld (fuel : Nat) (h : Table) : Exec Nat := countSlots fuel h.mem h.node h.slotTotal

/-- The maps that `dl_hash_init` and calls lead to.  Each call meets the condition `pre` on the
table and the key. -/
inductive CountedRun (pre : Call → Table → List UInt8 → Prop) : Counted → Prop where
  /-- The map has been created. -/
  | init {m : Mem Val} (node slot : Nat) (list : Bool) : m.Finite →
      CountedRun pre (.init m node slot list)
  /-- There has been a call. -/
  | call {alloc : Allocator (Obj Val)} {h h' : Counted} {key : List UInt8} {c : Call}
      {st : Status} : CountedRun pre h → pre c h.table key →
      Returns (fun fuel ↦ c.runCounted alloc fuel h key) (h', st) → CountedRun pre h'

/-- The call is not one that deletes a key which is found. -/
def Call.DeletesNothing (c : Call) (h : Table) (key : List UInt8) : Prop :=
  (∃ v, c = .set v) ∨ Returns (fun fuel ↦ find fuel h key) none

/-- `el_sum` is the number of values in the table. -/
def Counted.Exact (h : Counted) : Prop :=
  ∃ n : Nat, Returns (fun fuel ↦ entriesHeld fuel h.table) n ∧ h.elSum = n

/-- The number of values in a slot. -/
def Slot.total (s : HashSlot) : Nat := (s.items.map fun i ↦ 1 + i.rest.length).sum

/-- The number of values in slots. -/
def total (S : List HashSlot) : Nat := (S.map Slot.total).sum

/-- The memory holds the slots of the table; the keys may be anywhere. -/
structure Chains (h : Table) (S : List HashSlot) : Prop where
  /-- These are all slots. -/
  length : S.length = h.slotTotal
  /-- There is one. -/
  pos : 0 < S.length
  /-- The chains are in memory. -/
  holds : Holds h.mem (tableCells Stored.val Stored.own h.node S)
  /-- The first node of a chain is at its slot. -/
  ok : ∀ (i : Nat) (s : HashSlot), S[i]? = some s → Slot.Ok (h.node + i) s

variable {h h' : Table} {m m' : Mem Val} {H : Cells (Obj Val)} {key : List UInt8} {v : Arg}
  {S pre post : List HashSlot} {s s' : HashSlot} {a : Nat}

/-! ## Counting -/

theorem countValues_eq {l : List (Nat × Stored)} {fuel : Nat} (hf : l.length < fuel)
    (hm : Holds m (valuesCells Stored.val Stored.own l + H)) :
    countValues fuel m (firstValue l) = .ok l.length := by
  induction l generalizing H fuel with
  | nil =>
    cases fuel with
    | zero => cases hf
    | succ fuel => rfl
  | cons e l ih =>
    obtain ⟨b, g⟩ := e
    cases fuel with
    | zero => cases hf
    | succ fuel =>
      have hval : Holds m (cell b (.value ⟨some g.val, firstValue l⟩) +
          (g.own + valuesCells Stored.val Stored.own l + H)) :=
        hm.of_eq (by rw [valuesCells]; abel)
      have hrest : Holds m (valuesCells Stored.val Stored.own l +
          (cell b (.value ⟨some g.val, firstValue l⟩) + g.own + H)) :=
        hm.of_eq (by rw [valuesCells]; abel)
      change countValues (fuel + 1) m (some b) = _
      rw [countValues, loadValue_eq hval, Exec.ok_bind, ih (Nat.lt_of_succ_lt_succ hf) hrest]
      rfl

theorem countChain_eq {L : List (Item Stored)} {fuel : Nat} (hf : L.length < fuel)
    (hr : ∀ i ∈ L, L.length + i.rest.length < fuel)
    (hm : Holds m (chainCells Stored.val Stored.own none L + H)) :
    countChain fuel m (firstNode none L) = .ok (L.map fun i ↦ 1 + i.rest.length).sum := by
  induction L generalizing H fuel with
  | nil =>
    cases fuel with
    | zero => cases hf
    | succ fuel => rfl
  | cons i L ih =>
    cases fuel with
    | zero => cases hf
    | succ fuel =>
      have hnode : Holds m (cell i.addr (.node (i.node Stored.val (firstNode none L))) +
          (i.owned Stored.val Stored.own + chainCells Stored.val Stored.own none L + H)) :=
        hm.of_eq (by rw [chainCells]; abel)
      have hvals : Holds m (valuesCells Stored.val Stored.own i.rest + (cell i.kp (.str i.key) +
          i.first.own + (cell i.addr (.node (i.node Stored.val (firstNode none L))) +
            chainCells Stored.val Stored.own none L + H))) :=
        hm.of_eq (by rw [chainCells, Item.owned]; abel)
      have hrest : Holds m (chainCells Stored.val Stored.own none L +
          (cell i.addr (.node (i.node Stored.val (firstNode none L))) +
            i.owned Stored.val Stored.own + H)) := hm.of_eq (by rw [chainCells]; abel)
      have hlen : i.rest.length < fuel := by
        have hlt := hr i List.mem_cons_self
        rw [List.length_cons] at hlt
        omega
      have htail : ∀ j ∈ L, L.length + j.rest.length < fuel := fun j hj ↦ by
        have hlt := hr j (List.mem_cons_of_mem _ hj)
        rw [List.length_cons] at hlt
        omega
      change countChain (fuel + 1) m (some i.addr) = _
      rw [countChain, loadNode_eq hnode, Exec.ok_bind]
      simp only [Item.node, countValues_eq hlen hvals, Exec.ok_bind,
        ih (Nat.lt_of_succ_lt_succ hf) htail hrest]
      rfl

/-- There is fuel to count the values of each slot. -/
def CountFuel (fuel : Nat) (S : List HashSlot) : Prop :=
  ∀ s ∈ S, s.items.length < fuel ∧ ∀ i ∈ s.items, s.items.length + i.rest.length < fuel

theorem exists_countFuel (S : List HashSlot) : ∃ N, ∀ fuel, N ≤ fuel → CountFuel fuel S := by
  induction S with
  | nil => exact ⟨0, fun _ _ ↦ nofun⟩
  | cons s S ih =>
    obtain ⟨N, hN⟩ := ih
    obtain ⟨M, hM⟩ := exists_fuel s
    refine ⟨N + s.items.length + M, fun fuel hf t ht ↦ ?_⟩
    rcases List.mem_cons.mp ht with rfl | ht
    · obtain ⟨hlen, hrest⟩ := hM M (Nat.le_refl M)
      refine ⟨by omega, fun i hi ↦ ?_⟩
      have hlt := hrest i hi
      omega
    · exact hN fuel (by omega) t ht

theorem countSlots_eq {fuel : Nat} (hf : CountFuel fuel S)
    (hm : Holds m (tableCells Stored.val Stored.own a S + H))
    (hok : ∀ (i : Nat) (s : HashSlot), S[i]? = some s → Slot.Ok (a + i) s) :
    countSlots fuel m a S.length = .ok (total S) := by
  induction S generalizing a H with
  | nil => rfl
  | cons s S ih =>
    have hslot : Holds m (slotCells a s + (tableCells Stored.val Stored.own (a + 1) S + H)) :=
      hm.of_eq (by rw [tableCells]; abel)
    have hrest : Holds m (tableCells Stored.val Stored.own (a + 1) S + (slotCells a s + H)) :=
      hm.of_eq (by rw [tableCells]; abel)
    have hs : s.Ok a := hok 0 s rfl
    have hok' : ∀ (i : Nat) (t : HashSlot), S[i]? = some t → Slot.Ok (a + 1 + i) t :=
      fun i t ht ↦ by
        have hi := hok (i + 1) t ht
        rwa [← add_assoc, add_right_comm] at hi
    obtain ⟨hlen, hvals⟩ := hf s List.mem_cons_self
    rw [List.length_cons, countSlots, hs.loadNode_eq hslot, Exec.ok_bind,
      ih (fun t ht ↦ hf t (List.mem_cons_of_mem _ ht)) hrest hok']
    by_cases hnil : s.items = []
    · rw [if_pos (hs.head_eq_none.mpr hnil)]
      change Except.ok (0 + total S) = Except.ok (s.total + total S)
      rw [Slot.total, hnil]
      rfl
    · rw [if_neg (mt hs.head_eq_none.mp hnil)]
      rw [slotCells, Slot.cells_eq_chainCells hnil] at hslot
      rw [← hs.firstNode_eq hnil, countChain_eq hlen hvals hslot]
      rfl

theorem Chains.entriesHeld_eq (hc : Chains h S) :
    Returns (fun fuel ↦ entriesHeld fuel h) (total S) := by
  obtain ⟨N, hN⟩ := exists_countFuel S
  refine ⟨N, fun fuel hf ↦ ?_⟩
  unfold entriesHeld
  rw [← hc.length]
  exact countSlots_eq (hN fuel hf) (hc.holds.of_eq (add_zero _).symm) hc.ok

/-! ## Calls -/

theorem Inv.chains {M : Multimap Arg} (hi : Inv h S M) : Chains h S :=
  ⟨hi.length, hi.rep.pos, hi.rep.holds, hi.rep.ok⟩

theorem chains_init (node slot : Nat) (list : Bool) (hm : m.Finite) :
    ∃ S, Chains (init m node slot list) S ∧ total S = 0 := by
  have hpos : 0 < (if slot = 0 then 64 else slot) := by
    split_ifs <;> omega
  have hr : Rep Stored.val Stored.own _ node _ := .zero hm hpos
  refine ⟨_, ⟨List.length_replicate, hr.pos, hr.holds, hr.ok⟩, ?_⟩
  rw [total, List.map_replicate, List.sum_replicate]
  rfl

theorem total_middle (pre post : List HashSlot) (s : HashSlot) :
    total (pre ++ s :: post) = total pre + s.total + total post := by
  rw [total, List.map_append, List.sum_append, List.map_cons, List.sum_cons, ← add_assoc]
  rfl

/-- One of the slots has changed. -/
theorem Chains.replace (hc : Chains h (pre ++ s :: post))
    (hm : Holds m' (slotCells (h.node + pre.length) s' +
      otherCells Stored.val Stored.own h.node pre post))
    (hok : s'.Ok (h.node + pre.length)) : Chains { h with mem := m' } (pre ++ s' :: post) := by
  have hlen : (pre ++ s' :: post).length = (pre ++ s :: post).length := by
    rw [List.length_append, List.length_append, List.length_cons, List.length_cons]
  refine ⟨hlen.trans hc.length, hlen ▸ hc.pos, ?_, fun i t ht ↦ ?_⟩
  · rwa [tableCells_middle]
  · rcases getElem?_replace (s := s) ht with ⟨rfl, rfl⟩ | ht
    · exact hok
    · exact hc.ok i t ht

/-- The slot of a key. -/
theorem Chains.split (hc : Chains h S) (key : List UInt8) : ∃ pre s post, S = pre ++ s :: post ∧
    slot h (hashKey key) = h.node + pre.length ∧
    Holds h.mem (slotCells (h.node + pre.length) s +
      otherCells Stored.val Stored.own h.node pre post) ∧ s.Ok (h.node + pre.length) := by
  obtain ⟨s, hs⟩ : ∃ s, S[slotIndex S.length key]? = some s :=
    ⟨_, List.getElem?_eq_getElem (slotIndex_lt hc.pos key)⟩
  obtain ⟨pre, post, rfl, hpre⟩ := exists_append_of_getElem? hs
  refine ⟨pre, s, post, rfl, ?_, ?_, hc.ok _ _ (getElem?_middle _ _ _)⟩
  · rw [hpre, hc.length]
    rfl
  · have hm := hc.holds
    rwa [tableCells_middle] at hm

/-- A setter that is not refused adds one value. -/
theorem Chains.set {alloc : Allocator (Obj Val)} {fuel : Nat} {st : Status} (hc : Chains h S)
    (hrun : set alloc fuel h key v = .ok (h', st)) :
    ∃ S', Chains h' S' ∧ total S' = total S + if st = .ok then 1 else 0 := by
  obtain ⟨pre, s, post, rfl, ha, hm, hok⟩ := hc.split key
  have hdone : ∀ {m' s' log}, Yields (Handled.set alloc fuel h key v) ({ h with mem := m' }, .ok) log →
      Holds m' (slotCells (h.node + pre.length) s' +
        otherCells Stored.val Stored.own h.node pre post) → s'.Ok (h.node + pre.length) →
      s'.total = s.total + 1 → ∃ S', Chains h' S' ∧
        total S' = total (pre ++ s :: post) + if st = .ok then 1 else 0 := by
    intro m' s' log hset hm' hok' htotal
    have hset' := (Handled.erases_set ..).eq_ok hset
    obtain ⟨rfl, rfl⟩ := Prod.mk.inj (Except.ok.inj (hset'.symm.trans hrun))
    refine ⟨_, hc.replace hm' hok', ?_⟩
    rw [total_middle, total_middle, htotal, if_pos rfl]
    omega
  have hrest : ∀ {i : Item Stored} {xs : List Arg}, (i.entry Stored.arg).2 = xs →
      i.rest.length + 1 = xs.length := fun {i xs} hi ↦ by
    rw [← hi, Item.entry, List.length_cons, List.length_map]
  by_cases hs : s.items = []
  · obtain ⟨m', i, hset, haddr, hentry, hm'⟩ := set_empty alloc hm hok ha v hs
    have hlen := hrest (congrArg Prod.snd hentry)
    refine hdone (hset fuel) hm' haddr ?_
    rw [Slot.total, Slot.total, hs]
    simp only [List.map_cons, List.map_nil, List.sum_cons, List.sum_nil, List.length_cons,
      List.length_nil] at hlen ⊢
    omega
  · -- what the search finds
    have hsearch : ∃ o, search h.mem (hashKey key) key fuel (some (h.node + pre.length)) = .ok o := by
      unfold Hash.set at hrun
      simp only [ha, hok.loadNode_eq hm, Exec.ok_bind, if_neg (mt hok.head_eq_none.mp hs)] at hrun
      obtain ⟨o, ho, -⟩ := Exec.bind_eq_ok.mp hrun
      exact ⟨o, ho⟩
    obtain ⟨o, ho⟩ := hsearch
    cases o with
    | none =>
      obtain ⟨m', i, L, j, hitems, haddr, hset, hentry, hm'⟩ := set_absent alloc hm hok ha v hs
      have hlen := hrest (congrArg Prod.snd hentry)
      refine hdone (hset fuel ho) hm' haddr ?_
      rw [Slot.total, Slot.total, hitems]
      simp only [List.map_cons, List.sum_cons, List.length_cons, List.length_nil] at hlen ⊢
      omega
    | some n =>
      obtain ⟨L₁, j, L₂, hitems, rfl⟩ := hok.search_mem hs hm ho
      by_cases hlist : h.list = true
      · obtain ⟨m', b, j', hset, -, -, -, hvals, hm', hok'⟩ :=
          set_present alloc hm hok ha v hitems hlist
        have hlen := hrest hvals
        refine hdone (hset fuel ho) hm' hok' ?_
        rw [Slot.total, Slot.total, hitems]
        simp only [Item.entry, addValue, List.length_cons, List.length_map] at hlen
        simp only [List.map_append, List.map_cons, List.sum_append, List.sum_cons]
        omega
      · have hset : Yields (Handled.set alloc fuel h key v) (h, .again) [] := by
          refine set_yields alloc hm hok ha v hs _ ho ?_
          dsimp only
          rw [if_neg hlist]
          exact .pure _
        have hagain := (Handled.erases_set ..).eq_ok hset
        obtain ⟨rfl, rfl⟩ := Prod.mk.inj (Except.ok.inj (hagain.symm.trans hrun))
        exact ⟨_, hc, rfl⟩

/-- A key that is not found is not deleted. -/
theorem del_eq_of_find {fuel : Nat} (hf : find fuel h key = .ok none) :
    del fuel h key = .ok h := by
  unfold find at hf
  unfold del
  obtain ⟨node, hnode, hf⟩ := Exec.bind_eq_ok.mp hf
  simp only [hnode, Exec.ok_bind]
  split_ifs at hf ⊢
  · rfl
  · rw [hf]
    rfl

/-! ## Runs -/

/-- The number of values is `el_sum`. -/
theorem Counted.set_spec {alloc : Allocator (Obj Val)} {fuel : Nat} {h h' : Counted} {st : Status}
    (hc : Chains h.table S) (hsum : h.elSum = total S)
    (hrun : h.set alloc fuel key v = .ok (h', st)) :
    ∃ S', Chains h'.table S' ∧ h'.elSum = total S' := by
  unfold Counted.set at hrun
  obtain ⟨⟨t, st'⟩, hset, hrun⟩ := Exec.bind_eq_ok.mp hrun
  obtain ⟨S', hc', htotal⟩ := hc.set hset
  cases st' with
  | ok =>
    dsimp only at hrun
    split_ifs at hrun
    · obtain ⟨rfl, -⟩ := Prod.mk.inj (Except.ok.inj hrun)
      refine ⟨S', hc', ?_⟩
      rw [if_pos rfl] at htotal
      dsimp only
      omega
    · cases hrun
  | again =>
    obtain ⟨rfl, -⟩ := Prod.mk.inj (Except.ok.inj hrun)
    refine ⟨S', hc', ?_⟩
    rw [if_neg nofun] at htotal
    dsimp only
    omega

/-- A run is also one without a condition. -/
theorem CountedRun.mono {pre : Call → Table → List UInt8 → Prop} {h : Counted}
    (hrun : CountedRun pre h) : CountedRun (fun _ _ _ ↦ True) h := by
  induction hrun with
  | init node slot list hm => exact .init node slot list hm
  | call hrun hp hret ih => exact .call ih trivial hret

/-- As long as nothing is deleted, `el_sum` is the number of values. -/
theorem CountedRun.chains {h : Counted} (hrun : CountedRun Call.DeletesNothing h) :
    ∃ S, Chains h.table S ∧ h.elSum = total S := by
  induction hrun with
  | init node slot list hm =>
    obtain ⟨S, hc, hS⟩ := chains_init node slot list hm
    exact ⟨S, hc, by rw [hS]; rfl⟩
  | @call alloc h h' key c st hrun hp hret ih =>
    obtain ⟨S, hc, hsum⟩ := ih
    have hdel : ∀ {fuel t}, Counted.del fuel h key = .ok t →
        find fuel h.table key = .ok none → t = h := fun {fuel t} hdel hfind ↦ by
      unfold Counted.del at hdel
      rw [del_eq_of_find hfind] at hdel
      exact (Except.ok.inj hdel).symm
    obtain ⟨N, hN⟩ := hret
    rcases hp with ⟨v, rfl⟩ | ⟨N', hN'⟩
    · exact Counted.set_spec hc hsum (hN N (Nat.le_refl N))
    · have hrun := hN (max N N') (Nat.le_max_left N N')
      have hfind := hN' (max N N') (Nat.le_max_right N N')
      cases c with
      | set v => exact Counted.set_spec hc hsum hrun
      | rep v =>
        obtain ⟨t, ht, hset⟩ := Exec.bind_eq_ok.mp hrun
        obtain rfl := hdel ht hfind
        exact Counted.set_spec hc hsum hset
      | del =>
        obtain ⟨t, ht, hret⟩ := Exec.bind_eq_ok.mp hrun
        obtain rfl := hdel ht hfind
        obtain ⟨rfl, -⟩ := Prod.mk.inj (Except.ok.inj hret)
        exact ⟨S, hc, hsum⟩

/-- In every run that deletes nothing `el_sum` is the number of values in the table. -/
theorem elSum_exact {h : Counted} (hrun : CountedRun Call.DeletesNothing h) : h.Exact := by
  obtain ⟨S, hc, hsum⟩ := hrun.chains
  exact ⟨total S, hc.entriesHeld_eq, hsum⟩

/-- A map in which one value has been set. -/
theorem exists_counted : ∃ h S, CountedRun Call.DeletesNothing ⟨h, 1⟩ ∧
    Inv h S (Multimap.put (fun _ ↦ []) [97] [.int 5]) := by
  have hinit : CountedRun Call.DeletesNothing (.init (fun _ ↦ none) 1 2 false) :=
    .init _ _ _ ⟨0, fun _ _ ↦ rfl⟩
  obtain ⟨S, hi, -⟩ := inv_init 1 2 false ⟨0, fun _ _ ↦ rfl⟩
  have hclear : Clear [97] (slotKeys S [97]) := by
    have hnil : slotKeys S [97] = [] :=
      List.eq_nil_iff_forall_not_mem.mpr fun k hk ↦ hi.values_ne_nil hk rfl
    rw [hnil]
    trivial
  obtain ⟨h, S', hret, hi', -⟩ := hi.set (v := .int 5) (.least _) hclear ⟨by decide, by decide⟩
  rw [Call.after_nil] at hi'
  have hset : Returns (fun fuel ↦ (Call.set (.int 5)).runCounted (.least _) fuel
      (.init (fun _ ↦ none) 1 2 false) [97]) (⟨h, 1⟩, .ok) := hret.bind ⟨0, fun _ _ ↦ rfl⟩
  exact ⟨h, S', hinit.call (.inl ⟨_, rfl⟩) hset, hi'⟩

/-- One more value is set in a map with lists of values. -/
theorem CountedRun.exists_set {K : Set (List UInt8)} {n : Int} (hK : PrefixFree K)
    (hrun : CountedRun Call.DeletesNothing ⟨h, n⟩) (hi : Inv h S M) (hM : ∀ k, M k ≠ [] → k ∈ K)
    (hk : key ∈ K) (hv : v.InRange) (hlist : h.list = true) (hn : n + 1 < 2 ^ 31) :
    ∃ h' S' M', CountedRun Call.DeletesNothing ⟨h', n + 1⟩ ∧ Inv h' S' M' ∧
      (∀ k, M' k ≠ [] → k ∈ K) ∧ h'.list = true := by
  have hclear : Clear key (slotKeys S key) :=
    clear_of_forall fun s hs ↦ hK.separate (hM s (hi.values_ne_nil hs)) hk
  obtain ⟨h', S', hret, hi', -, hlist'⟩ := hi.set (.least _) hclear hv
  have hst : (Call.set v).status h.list (M key) = .ok := if_pos (.inr hlist)
  rw [hst] at hret
  have hset : Returns (fun fuel ↦ (Call.set v).runCounted (.least _) fuel ⟨h, n⟩ key)
      (⟨h', n + 1⟩, .ok) := hret.bind ⟨0, fun _ _ ↦ if_pos hn⟩
  refine ⟨h', S', _, hrun.call (.inl ⟨v, rfl⟩) hset, hi', fun k hne ↦ ?_, hlist'.trans hlist⟩
  rw [Multimap.put] at hne
  split_ifs at hne with hkey
  · exact hkey ▸ hk
  · exact hM k hne

theorem prefixFree_a_b : PrefixFree {[97], [98]} := by
  rintro s (rfl | rfl) u (rfl | rfl) hpre
  · rfl
  · exact absurd hpre (by decide)
  · exact absurd hpre (by decide)
  · rfl

/-- Two values of a key and one of another key are counted. -/
theorem elSum_exact_three : ∃ h : Counted, CountedRun Call.DeletesNothing h ∧ h.elSum = 3 ∧
    h.Exact := by
  obtain ⟨S, hi, -⟩ := inv_init 1 2 true ⟨0, fun _ _ ↦ rfl⟩
  have hinit : CountedRun Call.DeletesNothing (.init (fun _ ↦ none) 1 2 true) :=
    .init _ _ _ ⟨0, fun _ _ ↦ rfl⟩
  have hr : ∀ n : Int, -2 ^ 31 ≤ n ∧ n < 2 ^ 31 → (Arg.int n).InRange := fun _ h ↦ h
  obtain ⟨h₁, S₁, M₁, hrun₁, hi₁, hM₁, hlist₁⟩ := hinit.exists_set prefixFree_a_b hi
    (fun _ hne ↦ absurd rfl hne) (Or.inl rfl) (hr 5 (by decide)) rfl (by decide)
  obtain ⟨h₂, S₂, M₂, hrun₂, hi₂, hM₂, hlist₂⟩ := hrun₁.exists_set prefixFree_a_b hi₁ hM₁
    (Or.inl rfl) (hr 6 (by decide)) hlist₁ (by decide)
  obtain ⟨h₃, S₃, M₃, hrun₃, -, -, -⟩ := hrun₂.exists_set prefixFree_a_b hi₂ hM₂
    (Or.inr rfl) (hr 7 (by decide)) hlist₂ (by decide)
  exact ⟨_, hrun₃, rfl, elSum_exact hrun₃⟩

/-- A value that has been deleted is still counted. -/
theorem elSum_deleted : ∃ h : Counted, CountedRun (fun _ _ _ ↦ True) h ∧ h.elSum = 1 ∧
    Returns (fun fuel ↦ entriesHeld fuel h.table) 0 ∧ ¬ h.Exact := by
  obtain ⟨h, S, hrun, hi⟩ := exists_counted
  have hany : CountedRun (fun _ _ _ ↦ True) ⟨h, 1⟩ := hrun.mono
  have hclear : Clear [97] (slotKeys S [97]) := clear_of_forall fun k hk _ _ ↦ by
    have hne := hi.values_ne_nil hk
    by_contra hk'
    exact hne (if_neg hk')
  obtain ⟨h', S', hret, hi', -⟩ := hi.del hclear
  have hdel : Returns (fun fuel ↦ Call.del.runCounted (.least _) fuel ⟨h, 1⟩ [97]) (⟨h', 1⟩, .ok) :=
    (hret.bind ⟨0, fun _ _ ↦ rfl⟩ : Returns (fun fuel ↦ Counted.del fuel ⟨h, 1⟩ [97]) ⟨h', 1⟩).bind
      ⟨0, fun _ _ ↦ rfl⟩
  -- no key has a value
  have hnil : ∀ s ∈ S', s.items = [] := fun s hs ↦ by
    obtain ⟨i, hi₀⟩ := List.mem_iff_getElem?.mp hs
    refine List.eq_nil_iff_forall_not_mem.mpr fun j hj ↦ ?_
    have hvals := (hi'.values j.key).symm.trans (hi'.rep.tableValues_eq hi₀ hj)
    rw [Multimap.put, Multimap.put] at hvals
    split_ifs at hvals
    · cases hvals
    · cases hvals
  have htotal : total S' = 0 := by
    rw [total, List.sum_eq_zero_iff]
    intro n hn
    obtain ⟨s, hs, rfl⟩ := List.mem_map.mp hn
    rw [Slot.total, hnil s hs]
    rfl
  have hheld := hi'.chains.entriesHeld_eq
  rw [htotal] at hheld
  refine ⟨⟨h', 1⟩, hany.call trivial hdel, rfl, hheld, ?_⟩
  rintro ⟨n, hn, hsum⟩
  obtain rfl := hheld.unique hn
  cases hsum

end Dlbase.Hash
