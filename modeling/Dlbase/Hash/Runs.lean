import Dlbase.Hash.Observe
import Dlbase.Hash.Del

/-!
# Runs of the hash map

Every run of the map is followed with the values that each key should have.  As long as keys are
told apart, the map holds just these, and each call does to the values of its key what it should
and nothing else.
-/

namespace Dlbase.Hash

open Cmem

variable {h h' : Table} {key k : List UInt8} {v : Arg}

/-- Reading a value. -/
def Decodes (m : Mem Val) : Val → Arg → Prop
  | .int n, x => x = .int n
  | .str p, x => ∃ s, loadStr m (some p) = .ok s ∧ x = .str s
  | .void p, x => x = .void p

/-- A `long` is in the range of an `int`. -/
def Arg.InRange : Arg → Prop
  | int n => -2 ^ 31 ≤ n ∧ n < 2 ^ 31
  | _ => True

/-- The setter for the type of the value. -/
def setter (alloc : Allocator (Obj Val)) (fuel : Nat) (h : Table) (key : List UInt8) :
    Arg → Exec (Table × Status)
  | .int n => setInt alloc fuel h key n
  | .str s => setStr alloc fuel h key s
  | .void p => setVoid alloc fuel h key p

/-- The replacing setter for the type of the value. -/
def repSetter (alloc : Allocator (Obj Val)) (fuel : Nat) (h : Table) (key : List UInt8) :
    Arg → Exec (Table × Status)
  | .int n => setIntRep alloc fuel h key n
  | .str s => setStrRep alloc fuel h key s
  | .void p => setVoidRep alloc fuel h key p

/-- The calls that change the map. -/
inductive Call where
  /-- One of the setters. -/
  | set (v : Arg)
  /-- One of the replacing setters. -/
  | rep (v : Arg)
  /-- `dl_hash_del`. -/
  | del

/-- What a call does. -/
def Call.run (alloc : Allocator (Obj Val)) (fuel : Nat) (h : Table) (key : List UInt8) :
    Call → Exec (Table × Status)
  | set v => setter alloc fuel h key v
  | rep v => repSetter alloc fuel h key v
  | del => do
    let h ← Hash.del fuel h key
    pure (h, .ok)

/-- The integers of a call are in range. -/
def Call.InRange : Call → Prop
  | set v => v.InRange
  | rep v => v.InRange
  | del => True

/-! ## Maps from keys to lists of values -/

/-- The values of the keys. -/
abbrev Multimap (X : Type) := List UInt8 → List X

/-- The values of one key are changed. -/
def Multimap.put {X : Type} (M : Multimap X) (key : List UInt8) (xs : List X) : Multimap X :=
  fun k ↦ if k = key then xs else M k

variable {M : Multimap Arg} {c : Call}

/-- The values of the key after a call. -/
def Call.after (list : Bool) (xs : List Arg) : Call → List Arg
  | set v => if xs = [] ∨ list then addValue v xs else xs
  | rep v => [v]
  | del => []

/-- The result of a call. -/
def Call.status (list : Bool) (xs : List Arg) : Call → Status
  | set _ => if xs = [] ∨ list then .ok else .again
  | _ => .ok

/-- The tables that `dl_hash_init` and calls lead to, with the values that each key should have.
Each call meets the condition `pre` on the table and the key. -/
inductive Run (pre : Call → Table → List UInt8 → Prop) : Table → Multimap Arg → Prop where
  /-- The map has been created. -/
  | init {m : Mem Val} (node slot : Nat) (list : Bool) : m.Finite →
      Run pre (init m node slot list) fun _ ↦ []
  /-- There has been a call. -/
  | call {alloc : Allocator (Obj Val)} {h h' : Table} {M : Multimap Arg} {key : List UInt8}
      {c : Call} {st : Status} : Run pre h M → pre c h key → c.InRange →
      Returns (fun fuel ↦ c.run alloc fuel h key) (h', st) →
      Run pre h' (M.put key (c.after h.list (M key)))

/-- The memory holds the slots of the table with the values `M`. -/
structure Inv (h : Table) (S : List HashSlot) (M : Multimap Arg) : Prop where
  /-- The slots are in memory. -/
  rep : Rep Stored.val Stored.own h.mem h.node S
  /-- These are all slots. -/
  length : S.length = h.slotTotal
  /-- The values. -/
  values : ∀ k, tableValues Stored.arg S k = M k

/-- The key is told apart from those in its slot that a call compares it with: the deletion in a
replacing setter looks at the keys in front of it, and the setting at those that are left. -/
def Call.ApartFrom (c : Call) (key : List UInt8) (keys : List (List UInt8)) : Prop :=
  match c with
  | rep _ => ∀ s ∈ keys, Separate s key
  | _ => Clear key keys

/-- The call tells its key apart from the others in the table. -/
def Call.Apart (c : Call) (h : Table) (key : List UInt8) : Prop :=
  SlotKeys h.mem h.node h.slotTotal key (c.ApartFrom key)

/-- No other of the keys begins with a key. -/
def PrefixFree (K : Set (List UInt8)) : Prop := ∀ a ∈ K, ∀ b ∈ K, a <+: b → a = b

/-- `dl_hash_find` finds a key if it has values: its node, in the slot of its hash. -/
def Finds (h : Table) (M : Multimap Arg) (key : List UInt8) : Prop :=
  ∃ o, Returns (fun fuel ↦ find fuel h key) o ∧ (o = none ↔ M key = []) ∧
    ∀ a, o = some a → InSlot h.mem h.node h.slotTotal (slotIndex h.slotTotal key) a ∧
      KeyOf h.mem a key ∧ ValuesOf Decodes h.mem a (M key)

/-- A call returns, it changes the values of its key only, and it changes nothing if it is
refused. -/
def Does (h : Table) (M : Multimap Arg) (c : Call) (key : List UInt8) : Prop :=
  ∀ alloc, ∃ h', Returns (fun fuel ↦ c.run alloc fuel h key) (h', c.status h.list (M key)) ∧
    (c.status h.list (M key) = .again → h' = h) ∧
    Refines Decodes h'.mem h'.node h'.slotTotal (M.put key (c.after h.list (M key)))

/-- The map holds the values `M`, and the calls that tell their keys apart treat it so. -/
structure Exact (h : Table) (M : Multimap Arg) : Prop where
  /-- Each key with values has one node with just these. -/
  refines : Refines Decodes h.mem h.node h.slotTotal M
  /-- `dl_hash_find` finds the node of its own key. -/
  finds : ∀ key, Told h.mem h.node h.slotTotal key → Finds h M key
  /-- The other calls change the values of their own key. -/
  does : ∀ (c : Call) key, c.Apart h key → c.InRange → Does h M c key

variable {S : List HashSlot}

theorem stored_eq (hv : v.InRange) : v.stored = v := by
  cases v with
  | int n =>
    obtain ⟨hlo, hhi⟩ := hv
    exact congrArg Arg.int (Int.bmod_eq_of_le (by omega) (by omega))
  | str s => rfl
  | void p => rfl

theorem decodes_own {m : Mem Val} {H : Cells (Obj Val)} (g : Stored) (hm : Holds m (g.own + H)) :
    Decodes m g.val g.arg := by
  cases g with
  | int n => rfl
  | str p s => exact ⟨s, loadStr_eq hm, rfl⟩
  | void p => rfl

/-! ## The empty table -/

theorem inv_init {m : Mem Val} (node slot : Nat) (list : Bool) (hm : m.Finite) :
    ∃ S, Inv (init m node slot list) S (fun _ ↦ []) ∧ ∀ s ∈ S, s.items = [] := by
  have hpos : 0 < (if slot = 0 then 64 else slot) := by
    split_ifs <;> omega
  refine ⟨_, ⟨.zero hm hpos, List.length_replicate, fun k ↦ tableValues_zero⟩, fun s hs ↦ ?_⟩
  rw [List.eq_of_mem_replicate hs]

/-! ## The calls -/

theorem setEntries_spec (list : Bool) (key : List UInt8) (v : Arg)
    {E : List (Entry (List UInt8) Arg)} (hE : ∀ e ∈ E, e.2 ≠ []) (hn : (E.map Prod.fst).Nodup) :
    ((setEntries list key v E).1.map Prod.fst).Nodup ∧
      (∀ k ∈ (setEntries list key v E).1.map Prod.fst, k = key ∨ k ∈ E.map Prod.fst) ∧
      (∀ k, values k (setEntries list key v E).1 =
        if k = key then (Call.set v).after list (values key E) else values k E) ∧
      (setEntries list key v E).2 = (Call.set v).status list (values key E) := by
  unfold setEntries Call.after Call.status
  by_cases hmem : key ∈ E.map Prod.fst
  · have hne : values key E ≠ [] := (values_ne_nil hE).mpr hmem
    cases list with
    | true =>
      simp only [if_pos hmem, if_true, or_true, keys_update]
      exact ⟨hn, fun k hk ↦ .inr hk, fun k ↦ values_update hmem, trivial⟩
    | false =>
      simp only [if_pos hmem, Bool.false_eq_true, if_false, or_false, if_neg hne]
      refine ⟨hn, fun k hk ↦ .inr hk, fun k ↦ ?_, trivial⟩
      split_ifs with hk
      · rw [hk]
      · rfl
  · have hnil : values key E = [] := values_eq_nil hmem
    have hperm : ((insertSecond (key, [v]) E).map Prod.fst).Perm (key :: E.map Prod.fst) :=
      perm_insertSecond.map Prod.fst
    simp only [if_neg hmem, hnil, true_or, if_true]
    exact ⟨hperm.nodup_iff.mpr (List.nodup_cons.mpr ⟨hmem, hn⟩),
      fun k hk ↦ List.mem_cons.mp (hperm.mem_iff.mp hk), fun k ↦ values_insertSecond hmem, trivial⟩

/-- There is always enough fuel. -/
theorem exists_fuel (s : HashSlot) : ∃ N, ∀ fuel, N ≤ fuel → Fuel fuel s := by
  refine ⟨s.items.length + (s.items.map fun i ↦ i.rest.length).sum + 1, fun fuel hf ↦ ?_⟩
  refine ⟨by omega, fun i hi ↦ ?_⟩
  have hle : i.rest.length ≤ (s.items.map fun i ↦ i.rest.length).sum :=
    List.le_sum_of_mem (List.mem_map_of_mem hi)
  omega

namespace Inv

theorem slot_eq (hi : Inv h S M) : slot h (hashKey key) = h.node + slotIndex S.length key := by
  rw [hi.length]
  rfl

/-- Setting a key: what is stored, and what is written to the log. -/
theorem set_handled (alloc : Allocator (Obj Val)) (hi : Inv h S M) (hc : Clear key (slotKeys S key))
    (v : Arg) : ∃ h' S' log, Returns (fun fuel ↦ (Handled.set alloc fuel h key v).run)
        ((h', (Call.set v.stored).status h.list (M key)), log) ∧
      Inv h' S' (M.put key ((Call.set v.stored).after h.list (M key))) ∧
      ((Call.set v.stored).status h.list (M key) = .again → h' = h) ∧ h'.list = h.list ∧
      handled log = [] ∧ freed log = 0 ∧ heap S' = heap S + created log ∧
      held S' = held S + accepted v.stored ((Call.set v.stored).status h.list (M key)) := by
  obtain ⟨s, H, hs, hok, hm, hnodup, hval, hfocus⟩ := hi.rep.focus Stored.arg key
  rw [slotKeys, hs] at hc
  obtain ⟨m', s', st, log, hrun, hm', hok', hagain, hentries, hadds⟩ :=
    set_slot alloc hm hok hi.slot_eq hc v
  have hspec := setEntries_spec h.list key v.stored entries_ne_nil hnodup
  have hheld := heldBy_setEntries h.list key v.stored (entries Stored.arg s.items)
  rw [← hentries, ← hval, hi.values] at hspec
  rw [← hentries] at hheld
  obtain ⟨hn, hk, hv, rfl⟩ := hspec
  obtain ⟨S', hr', hlen', -, hM', hsum⟩ := hfocus m' s' _ hm' hok' hn hk hv
  refine ⟨{ h with mem := m' }, S', log, ⟨s.items.length + 1, fun fuel hf ↦ hrun fuel hf⟩,
    ⟨hr', hlen'.trans hi.length, fun k ↦ ?_⟩, fun hst ↦ ?_, rfl, hadds.handled, hadds.freed, ?_, ?_⟩
  · rw [hM', hi.values]
    rfl
  · rw [hagain hst]
  · have hsum := hsum Slot.heap
    rw [hadds.heap, ← add_assoc, add_right_comm] at hsum
    exact add_right_cancel hsum
  · have hsum := hsum slotHeld
    change (S'.map slotHeld).sum + _ = _ + heldBy _ at hsum
    rw [hheld, ← add_assoc, add_right_comm] at hsum
    exact add_right_cancel hsum

/-- Setting a key. -/
theorem set (alloc : Allocator (Obj Val)) (hi : Inv h S M) (hc : Clear key (slotKeys S key))
    (hv : v.InRange) : ∃ h' S', Returns (fun fuel ↦ Hash.set alloc fuel h key v)
        (h', (Call.set v).status h.list (M key)) ∧
      Inv h' S' (M.put key ((Call.set v).after h.list (M key))) ∧
      ((Call.set v).status h.list (M key) = .again → h' = h) ∧ h'.list = h.list := by
  obtain ⟨h', S', log, ⟨N, hN⟩, hi', hagain, hlist, -⟩ := hi.set_handled alloc hc v
  rw [stored_eq hv] at hN hi' hagain
  exact ⟨h', S', ⟨N, fun fuel hf ↦ (Handled.erases_set ..).eq_ok (hN fuel hf)⟩, hi', hagain, hlist⟩

/-- Deleting a key, and what is written to the log. -/
theorem del_handled (hi : Inv h S M) (hc : Clear key (slotKeys S key)) :
    ∃ h' S' log, Returns (fun fuel ↦ (Handled.del fuel h key).run) (h', log) ∧
      Inv h' S' (M.put key []) ∧ (slotKeys S' key).Sublist (slotKeys S key) ∧ h'.list = h.list ∧
      handled log = voids (M key) ∧ created log = 0 ∧ heap S = heap S' + freed log ∧
      held S = held S' + voids (M key) := by
  obtain ⟨s, H, hs, hok, hm, hnodup, hval, hfocus⟩ := hi.rep.focus Stored.arg key
  rw [slotKeys, hs] at hc
  obtain ⟨m', s', log, hrun, hm', hok', hentries, hrem⟩ := del_slot hm hok hi.slot_eq hc
  have hheld : heldBy (entries Stored.arg s.items) = heldBy (erase key (entries Stored.arg s.items)) +
      voids (Hash.values key (entries Stored.arg s.items)) := heldBy_erase
  rw [← hentries, ← hval, hi.values] at hheld
  rw [← hval, hi.values] at hrem
  obtain ⟨N, hN⟩ := exists_fuel s
  have hsub : ((entries Stored.arg s'.items).map Prod.fst).Sublist
      ((entries Stored.arg s.items).map Prod.fst) := by
    rw [hentries]
    exact erase_sublist.map _
  obtain ⟨S', hr', hlen', hs', hM', hsum⟩ := hfocus m' s' [] hm' hok' (hnodup.sublist hsub)
    (fun k hk ↦ .inr (hsub.subset hk)) (fun k ↦ by rw [hentries]; exact values_erase hnodup)
  refine ⟨{ h with mem := m' }, S', log, ⟨N, fun fuel hf ↦ hrun fuel (hN fuel hf)⟩,
    ⟨hr', hlen'.trans hi.length, fun k ↦ ?_⟩, ?_, rfl, hrem.handled, hrem.created, ?_, ?_⟩
  · rw [hM', hi.values]
    rfl
  · rw [keys_entries, keys_entries] at hsub
    rw [slotKeys, slotKeys, hlen', hs, hs']
    exact hsub
  · have hsum := hsum Slot.heap
    rw [hrem.heap, add_comm s'.heap, ← add_assoc] at hsum
    exact (add_right_cancel hsum).symm
  · have hsum := hsum slotHeld
    change _ + heldBy _ = (S.map slotHeld).sum + heldBy _ at hsum
    rw [hheld, add_comm (heldBy _) (voids _ : Multiset Nat), ← add_assoc] at hsum
    exact (add_right_cancel hsum).symm

/-- Deleting a key. -/
theorem del (hi : Inv h S M) (hc : Clear key (slotKeys S key)) :
    ∃ h' S', Returns (fun fuel ↦ Hash.del fuel h key) h' ∧ Inv h' S' (M.put key []) ∧
      (slotKeys S' key).Sublist (slotKeys S key) ∧ h'.list = h.list := by
  obtain ⟨h', S', log, ⟨N, hN⟩, hi', hsub, hlist, -⟩ := hi.del_handled hc
  exact ⟨h', S', ⟨N, fun fuel hf ↦ (Handled.erases_del ..).eq_ok (hN fuel hf)⟩, hi', hsub, hlist⟩

/-- Replacing the values of a key. -/
theorem repl (alloc : Allocator (Obj Val)) (hi : Inv h S M)
    (hc : ∀ s ∈ slotKeys S key, Separate s key) (hv : v.InRange) :
    ∃ h' S', Returns (fun fuel ↦ setRep alloc fuel h key v) (h', .ok) ∧
      Inv h' S' (M.put key [v]) ∧ h'.list = h.list := by
  obtain ⟨h₁, S₁, hrun₁, hi₁, hsub, hlist₁⟩ := hi.del (clear_of_forall hc)
  have hnil : M.put key [] key = [] := if_pos rfl
  have hset := hi₁.set alloc (clear_of_forall fun s hs ↦ hc s (hsub.subset hs)) hv
  rw [hnil] at hset
  obtain ⟨h', S', hrun', hi', -, hlist'⟩ := hset
  refine ⟨h', S', hrun₁.bind hrun', ⟨hi'.rep, hi'.length, fun k ↦ ?_⟩, hlist'.trans hlist₁⟩
  rw [hi'.values, Multimap.put, Multimap.put, Multimap.put]
  split_ifs
  · rfl
  · rfl

/-- A call. -/
theorem call (alloc : Allocator (Obj Val)) (hi : Inv h S M)
    (hc : c.ApartFrom key (slotKeys S key)) (hr : c.InRange) :
    ∃ h' S', Returns (fun fuel ↦ c.run alloc fuel h key) (h', c.status h.list (M key)) ∧
      Inv h' S' (M.put key (c.after h.list (M key))) ∧
      (c.status h.list (M key) = .again → h' = h) := by
  cases c with
  | set v =>
    obtain ⟨h', S', hrun, hi', hagain, -⟩ := hi.set alloc hc hr
    refine ⟨h', S', ?_, hi', hagain⟩
    cases v <;> exact hrun
  | rep v =>
    obtain ⟨h', S', hrun, hi', -⟩ := hi.repl alloc hc hr
    refine ⟨h', S', ?_, hi', nofun⟩
    cases v <;> exact hrun
  | del =>
    obtain ⟨h', S', hrun, hi', -⟩ := hi.del hc
    exact ⟨h', S', hrun.bind ⟨0, fun _ _ ↦ rfl⟩, hi', nofun⟩

/-- What memory shows of the keys in a slot. -/
theorem of_slotKeys (hi : Inv h S M) {P : List (List UInt8) → Prop} (hP : P [])
    (ht : SlotKeys h.mem h.node h.slotTotal key P) : P (slotKeys S key) :=
  hi.rep.of_slotKeys hP (hi.length ▸ ht)

/-- The keys in a slot have values. -/
theorem values_ne_nil (hi : Inv h S M) (hk : k ∈ slotKeys S key) : M k ≠ [] := by
  rw [← hi.values]
  exact hi.rep.values_ne_nil hk

theorem refines (hi : Inv h S M) : Refines Decodes h.mem h.node h.slotTotal M := by
  have hM : tableValues Stored.arg S = M := funext hi.values
  rw [← hi.length, ← hM]
  exact hi.rep.refines decodes_own

/-- Looking for a key. -/
theorem find (hi : Inv h S M) (hc : Clear key (slotKeys S key)) : Finds h M key := by
  obtain ⟨o, N, hrun, hnone, hsome⟩ := hi.rep.lookup Stored.arg decodes_own hc
  rw [hi.length] at hsome
  rw [hi.values] at hnone hsome
  refine ⟨o, ⟨N, fun fuel hf ↦ ?_⟩, hnone, hsome⟩
  unfold Hash.find
  simp only [hi.slot_eq]
  exact hrun fuel hf

end Inv

/-! ## Runs -/

variable {pre : Call → Table → List UInt8 → Prop}

/-- Every table that is reached holds the values that it should. -/
theorem Run.inv (hpre : ∀ {c h S M key}, Run pre h M → Inv h S M → pre c h key →
    c.ApartFrom key (slotKeys S key)) (hrun : Run pre h M) : ∃ S, Inv h S M := by
  induction hrun with
  | init node slot list hm =>
    obtain ⟨S, hi, -⟩ := inv_init node slot list hm
    exact ⟨S, hi⟩
  | @call alloc h h' M key c st hrun hp hr hret ih =>
    obtain ⟨S, hi⟩ := ih
    obtain ⟨h₁, S', hret', hi', -⟩ := hi.call alloc (hpre hrun hi hp) hr
    obtain ⟨rfl, -⟩ := Prod.mk.inj (hret.unique hret')
    exact ⟨S', hi'⟩

/-- The keys with values have been set. -/
theorem Run.mem_of_ne_nil {K : Set (List UInt8)} (hrun : Run (fun _ _ key ↦ key ∈ K) h M)
    (hk : M k ≠ []) : k ∈ K := by
  induction hrun with
  | init => exact absurd rfl hk
  | call hrun hp hr hret ih =>
    rw [Multimap.put] at hk
    split_ifs at hk with heq
    · rwa [heq]
    · exact ih hk

theorem Inv.does (hi : Inv h S M) (hc : c.ApartFrom key (slotKeys S key)) (hr : c.InRange) :
    Does h M c key := fun alloc ↦ by
  obtain ⟨h', S', hret, hi', hagain⟩ := hi.call alloc hc hr
  exact ⟨h', hret, hagain, hi'.refines⟩

/-- A key is told apart from the other keys of a set of which none begins with another. -/
theorem PrefixFree.separate {K : Set (List UInt8)} (hK : PrefixFree K) {s t : List UInt8}
    (hs : s ∈ K) (ht : t ∈ K) : Separate s t := fun _ hst ↦
  hst.elim (hK s hs t ht) fun hts ↦ (hK t ht s hs hts).symm

/-- A key is told apart from the keys of the map if it is told apart from all keys that are used. -/
theorem Inv.apartFrom {K : Set (List UInt8)} (hi : Inv h S M) (hmem : ∀ k, M k ≠ [] → k ∈ K)
    (hK : ∀ s ∈ K, Separate s key) : c.ApartFrom key (slotKeys S key) := by
  have hsep : ∀ s ∈ slotKeys S key, Separate s key := fun s hs ↦
    hK s (hmem s (hi.values_ne_nil hs))
  cases c with
  | rep v => exact hsep
  | set v => exact clear_of_forall hsep
  | del => exact clear_of_forall hsep

theorem PrefixFree.apartFrom {K : Set (List UInt8)} (hK : PrefixFree K)
    (hmem : ∀ k, M k ≠ [] → k ∈ K) (hi : Inv h S M) (hk : key ∈ K) :
    c.ApartFrom key (slotKeys S key) :=
  hi.apartFrom hmem fun _ hs ↦ hK.separate hs hk

theorem Call.apartFrom_nil : c.ApartFrom key [] := by
  cases c with
  | rep v => exact nofun
  | set v => trivial
  | del => trivial

theorem Call.after_nil (list : Bool) (v : Arg) : (Call.set v).after list [] = [v] := by
  unfold Call.after
  exact if_pos (.inl rfl)

theorem Call.status_nil (list : Bool) (v : Arg) : (Call.set v).status list [] = .ok := by
  unfold Call.status
  exact if_pos (.inl rfl)

/-- If no key begins with another one, the map holds just the values that have been accepted. -/
theorem hash_multimap {K : Set (List UInt8)} (hK : PrefixFree K)
    (hrun : Run (fun _ _ key ↦ key ∈ K) h M) :
    Refines Decodes h.mem h.node h.slotTotal M ∧ (∀ key ∈ K, Finds h M key) ∧
      ∀ (c : Call), ∀ key ∈ K, c.InRange → Does h M c key := by
  obtain ⟨S, hi⟩ := hrun.inv fun hrun hi hk ↦ hK.apartFrom (fun _ ↦ hrun.mem_of_ne_nil) hi hk
  have hmem : ∀ k, M k ≠ [] → k ∈ K := fun _ ↦ hrun.mem_of_ne_nil
  exact ⟨hi.refines, fun key hk ↦ hi.find (hK.apartFrom (c := .del) hmem hi hk),
    fun c key hk hr ↦ hi.does (hK.apartFrom hmem hi hk) hr⟩

/-- A map with one key, which is set twice. -/
theorem hash_multimap_twice : ∃ h M, Run (fun _ _ key ↦ key ∈ ({[97]} : Set (List UInt8))) h M ∧
    M [97] = [.int 5] ∧ Finds h M [97] ∧ Does h M (.set (.int 7)) [97] := by
  have hK : PrefixFree {[97]} := fun a ha b hb _ ↦ ha.trans hb.symm
  have hinit : Run (fun _ _ key ↦ key ∈ ({[97]} : Set (List UInt8)))
      (init (fun _ ↦ none) 1 2 false) fun _ ↦ [] := .init _ _ _ ⟨0, fun _ _ ↦ rfl⟩
  obtain ⟨-, -, hdoes⟩ := hash_multimap hK hinit
  have hr : (Call.set (.int 5)).InRange := ⟨by decide, by decide⟩
  obtain ⟨h', hret, -⟩ := hdoes (.set (.int 5)) [97] rfl hr (.least _)
  have hrun := hinit.call rfl hr hret
  obtain ⟨-, hfinds, hdoes'⟩ := hash_multimap hK hrun
  exact ⟨_, _, hrun, rfl, hfinds _ rfl, hdoes' _ _ rfl ⟨by decide, by decide⟩⟩

/-- As long as keys are told apart, the map holds just the values that have been accepted. -/
theorem Run.exact (hrun : Run Call.Apart h M) : Exact h M := by
  obtain ⟨S, hi⟩ := hrun.inv fun _ hi hk ↦ hi.of_slotKeys Call.apartFrom_nil hk
  exact ⟨hi.refines, fun key hk ↦ hi.find (hi.of_slotKeys trivial hk),
    fun c key hk hr ↦ hi.does (hi.of_slotKeys Call.apartFrom_nil hk) hr⟩

/-- Calls for keys that are told apart from one another. -/
theorem Run.apart {K : Set (List UInt8)} (hK : ∀ a ∈ K, ∀ b ∈ K, Separate a b)
    (hrun : Run (fun _ _ key ↦ key ∈ K) h M) : Run Call.Apart h M := by
  induction hrun with
  | init node slot list hm => exact .init node slot list hm
  | @call alloc h h' M key c st hrun hk hr hret ih =>
    obtain ⟨S, hi⟩ := ih.inv fun _ hi hk ↦ hi.of_slotKeys Call.apartFrom_nil hk
    have hslot : c.ApartFrom key (slotKeys S key) :=
      hi.apartFrom (fun _ ↦ hrun.mem_of_ne_nil) fun s hs ↦ hK s hs key hk
    refine .call ih ?_ hr hret
    rw [Call.Apart, ← hi.length]
    exact hi.rep.to_slotKeys hslot

end Dlbase.Hash
