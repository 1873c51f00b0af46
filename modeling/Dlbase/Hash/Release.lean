import Dlbase.Hash.Fidelity

/-!
# Everything is released once

In a run over keys of which none begins with another, each node and each further value that is
created is freed once, and each value of type `DL_H_VOID` that the map accepts is passed to the
user's function once: by the call that removes it, or when the map is destroyed.
-/

namespace Dlbase.Hash

open Cmem

variable {m : Mem Val} {H : Cells (Obj Val)} {h h' : Table} {S S' : List HashSlot}
  {M : Multimap Arg} {a : Nat} {key : List UInt8} {K : Set (List UInt8)} {c : Call} {st : Status}
  {log log' : List Event} {acc : Multiset Nat} {M' : Multimap Arg} {xs : List Arg}

/-! ## Destroying -/

/-- What freeing the nodes behind the first one writes to the log. -/
def chainEvents (L : List (Item Stored)) : List Event :=
  L.flatMap fun i ↦ i.events ++ [.free i.addr]

/-- What destroying a slot writes to the log. -/
def slotEvents (s : HashSlot) : List Event :=
  match s.items with
  | [] => []
  | i :: L => i.events ++ chainEvents L

/-- The node at a slot is not freed itself. -/
theorem freeMain_spec {i : Item Stored} {q : Option Nat}
    (hm : Holds m (cell a (.node (i.node Stored.val q)) + (i.owned Stored.val Stored.own + H))) :
    ∃ m' n, (∀ fuel, i.rest.length < fuel → Yields (Handled.freeNode fuel m a a) m' i.events) ∧
      Holds m' (cell a (.node n) + H) := by
  have hm₁ : Holds m (cell a (.node (i.node Stored.val q)) + (cell i.kp (.str i.key) +
      (i.first.own + (valuesCells Stored.val Stored.own i.rest + H)))) :=
    hm.of_eq (by rw [Item.owned]; abel)
  obtain ⟨m₂, hrun₂, hm₂⟩ := freeK_spec rfl hm₁
  obtain ⟨m₃, hrun₃, hm₃⟩ := freeV_spec rfl hm₂
  refine ⟨m₃, _, fun fuel hf ↦ .lift_bind hrun₂ ((hrun₃ fuel hf).bind_nil ?_), hm₃⟩
  rw [if_neg (not_not.mpr rfl)]
  exact .pure _

/-- The nodes behind the first one are freed. -/
theorem destroyRest_spec {L : List (Item Stored)} {main B : Nat} {o : Obj Val}
    (hm : Holds m (chainCells Stored.val Stored.own none L + (cell main o + H)))
    (hB : ∀ i ∈ L, i.rest.length < B) :
    ∃ m', (∀ fuel, L.length + B < fuel →
        Yields (Handled.destroyChain main fuel m (firstNode none L)) m' (chainEvents L)) ∧
      Holds m' (cell main o + H) := by
  induction L generalizing m with
  | nil =>
    refine ⟨m, fun fuel hf ↦ ?_, hm.of_eq (zero_add _)⟩
    obtain ⟨fuel, rfl⟩ := Nat.exists_eq_add_of_le' (Nat.zero_lt_of_lt hf)
    exact .pure _
  | cons i L ih =>
    rw [List.forall_mem_cons] at hB
    have hm₁ : Holds m (cell i.addr (.node (i.node Stored.val (firstNode none L))) +
        (i.owned Stored.val Stored.own + (chainCells Stored.val Stored.own none L +
          (cell main o + H)))) := hm.of_eq (by rw [chainCells]; abel)
    have hne : main ≠ i.addr := hm₁.ne (e := (main, o)) (by simp [cell])
    obtain ⟨m₂, hrun₂, hm₂⟩ := freeNode_spec hne hm₁
    obtain ⟨m', hrun', hm'⟩ := ih hm₂ hB.2
    refine ⟨m', fun fuel hf ↦ ?_, hm'⟩
    rw [List.length_cons] at hf
    obtain ⟨fuel, rfl⟩ := Nat.exists_eq_add_of_le' (Nat.zero_lt_of_lt hf)
    exact .lift_bind (loadNode_eq hm₁) ((hrun₂ fuel (by omega)).bind (hrun' fuel (by omega)))

/-- The chain of a slot is destroyed, and the node at the slot is left. -/
theorem destroyChain_spec {s : HashSlot} {B : Nat} (hok : s.Ok a) (hs : s.items ≠ [])
    (hm : Holds m (slotCells a s + H)) (hB : ∀ i ∈ s.items, i.rest.length < B) :
    ∃ m' n, (∀ fuel, s.items.length + B < fuel →
        Yields (Handled.destroyChain a fuel m (some a)) m' (slotEvents s)) ∧
      Holds m' (cell a (.node n) + H) := by
  obtain ⟨stale, items⟩ := s
  obtain ⟨i, L, rfl⟩ := List.exists_cons_of_ne_nil hs
  obtain rfl : i.addr = a := hok
  rw [List.forall_mem_cons] at hB
  have hm₁ : Holds m (cell i.addr (.node (i.node Stored.val (firstNode none L))) +
      (i.owned Stored.val Stored.own + (chainCells Stored.val Stored.own none L + H))) :=
    hm.of_eq (by
      change chainCells Stored.val Stored.own none (i :: L) + H = _
      rw [chainCells]
      abel)
  obtain ⟨m₂, n, hrun₂, hm₂⟩ := freeMain_spec hm₁
  obtain ⟨m', hrun', hm'⟩ := destroyRest_spec (hm₂.of_eq (add_left_comm _ _ _)) hB.2
  refine ⟨m', n, fun fuel hf ↦ ?_, hm'⟩
  rw [List.length_cons] at hf
  obtain ⟨fuel, rfl⟩ := Nat.exists_eq_add_of_le' (Nat.zero_lt_of_lt hf)
  exact .lift_bind (loadNode_eq hm₁) ((hrun₂ fuel (by omega)).bind (hrun' fuel (by omega)))

/-- All slots are destroyed, and their nodes are left. -/
theorem destroySlots_spec (hm : Holds m (tableCells Stored.val Stored.own a S + H))
    (hok : ∀ (i : Nat) (s : HashSlot), S[i]? = some s → Slot.Ok (a + i) s) :
    ∃ m' S', S'.length = S.length ∧ (∀ s ∈ S', s.items = []) ∧ (∃ N, ∀ fuel, N ≤ fuel →
        Yields (Handled.destroySlots fuel m a S.length) m' (S.flatMap slotEvents)) ∧
      Holds m' (tableCells Stored.val Stored.own a S' + H) := by
  induction S generalizing m a H with
  | nil => exact ⟨m, [], rfl, nofun, ⟨0, fun fuel _ ↦ .pure _⟩, hm⟩
  | cons s S ih =>
    have hs : s.Ok a := hok 0 s rfl
    have hok' : ∀ (i : Nat) (t : HashSlot), S[i]? = some t → Slot.Ok (a + 1 + i) t :=
      fun i t ht ↦ by
        have hi := hok (i + 1) t ht
        rwa [← add_assoc, add_right_comm] at hi
    have hm₁ : Holds m (slotCells a s + (tableCells Stored.val Stored.own (a + 1) S + H)) :=
      hm.of_eq (by rw [tableCells]; abel)
    have hload := hs.loadNode_eq hm₁
    -- the slot itself
    have hslot : ∃ m₁ n, (∃ N, ∀ fuel, N ≤ fuel → Yields (if (s.head Stored.val).v.v = none then
        pure m else Handled.destroyChain a fuel m (some a)) m₁ (slotEvents s)) ∧
        Holds m₁ (cell a (.node n) + (tableCells Stored.val Stored.own (a + 1) S + H)) := by
      by_cases hnil : s.items = []
      · refine ⟨m, s.stale, ⟨0, fun fuel _ ↦ ?_⟩, ?_⟩
        · rw [if_pos (hs.head_eq_none.mpr hnil), slotEvents, hnil]
          exact .pure _
        · rw [slotCells, Slot.cells, hnil] at hm₁
          exact hm₁
      · obtain ⟨B, hB⟩ := exists_fuel s
        obtain ⟨m₁, n, hrun, hm₁⟩ := destroyChain_spec hs hnil hm₁ (hB B (Nat.le_refl B)).2
        refine ⟨m₁, n, ⟨s.items.length + B + 1, fun fuel hf ↦ ?_⟩, hm₁⟩
        rw [if_neg (mt hs.head_eq_none.mp hnil)]
        exact hrun fuel hf
    obtain ⟨m₁, n, ⟨N, hN⟩, hm₂⟩ := hslot
    obtain ⟨m', S', hlen, hempty, ⟨N', hN'⟩, hm'⟩ := ih (hm₂.of_eq (add_left_comm _ _ _)) hok'
    refine ⟨m', ⟨n, []⟩ :: S', congrArg Nat.succ hlen, List.forall_mem_cons.mpr ⟨rfl, hempty⟩,
      ⟨max N N', fun fuel hf ↦ ?_⟩, hm'.of_eq ?_⟩
    · have hfirst := hN fuel (Nat.le_trans (Nat.le_max_left N N') hf)
      have hrest := hN' fuel (Nat.le_trans (Nat.le_max_right N N') hf)
      refine .lift_bind hload ?_
      rw [List.flatMap_cons]
      split_ifs at hfirst ⊢
      · exact hfirst.bind hrest
      · exact hfirst.bind hrest
    · rw [tableCells]
      change _ = cell a (.node n) + _ + H
      abel

/-- The array of slots is freed. -/
theorem freeSlots_spec (hm : Holds m (tableCells Stored.val Stored.own a S + H))
    (hempty : ∀ s ∈ S, s.items = []) :
    ∃ m', Handled.freeSlots m a S.length = .ok m' ∧ Holds m' H := by
  induction S generalizing m a with
  | nil => exact ⟨m, rfl, hm.of_eq (zero_add _)⟩
  | cons s S ih =>
    rw [List.forall_mem_cons] at hempty
    rw [tableCells, Slot.cells, hempty.1, add_assoc] at hm
    obtain ⟨m₁, hrun₁, hm₁⟩ := Holds.free hm
    obtain ⟨m', hrun', hm'⟩ := ih hm₁ hempty.2
    refine ⟨m', ?_, hm'⟩
    rw [List.length_cons, Handled.freeSlots, hrun₁, Exec.ok_bind, hrun']

/-! ## What destroying writes to the log -/

theorem created_chainEvents (L : List (Item Stored)) : created (chainEvents L) = 0 := by
  have hnode : ∀ i : Item Stored, created (i.events ++ [.free i.addr]) = 0 := fun i ↦ by
    rw [created_append, created_events]
    rfl
  rw [chainEvents, created_flatMap]
  simp only [hnode, List.map_const', List.sum_replicate, nsmul_zero]

theorem freed_chainEvents (L : List (Item Stored)) :
    freed (chainEvents L) = (L.map Item.addr : List Nat) + (L.map Item.further).sum := by
  rw [chainEvents, freed_flatMap]
  induction L with
  | nil => rfl
  | cons i L ih =>
    rw [List.map_cons, List.map_cons, List.map_cons, List.sum_cons, List.sum_cons, ih,
      freed_append, freed_events, ← Multiset.cons_coe, ← Multiset.singleton_add]
    change i.further + {i.addr} + _ = _
    abel

theorem handled_chainEvents (L : List (Item Stored)) :
    (handled (chainEvents L) : Multiset Nat) = heldBy (entries Stored.arg L) := by
  have hnode : ∀ i : Item Stored,
      handled (i.events ++ [.free i.addr]) = voids (i.entry Stored.arg).2 := fun i ↦ by
    rw [handled_append, handled_events]
    exact List.append_nil _
  rw [chainEvents, handled_flatMap, heldBy, entries, List.map_map]
  simp only [hnode]
  rfl

theorem created_slotEvents (s : HashSlot) : created (slotEvents s) = 0 := by
  obtain ⟨stale, items⟩ := s
  cases items with
  | nil => rfl
  | cons i L =>
    rw [slotEvents, created_append, created_events, created_chainEvents]
    rfl

theorem freed_slotEvents (s : HashSlot) : freed (slotEvents s) = s.heap := by
  obtain ⟨stale, items⟩ := s
  cases items with
  | nil => rfl
  | cons i L =>
    rw [slotEvents, freed_append, freed_events, freed_chainEvents, Slot.heap, heapOf_cons]
    abel

theorem handled_slotEvents (s : HashSlot) :
    (handled (slotEvents s) : Multiset Nat) = slotHeld s := by
  obtain ⟨stale, items⟩ := s
  cases items with
  | nil => rfl
  | cons i L =>
    rw [slotEvents, handled_append, ← Multiset.coe_add, handled_events, handled_chainEvents]
    exact (heldBy_cons _).symm

/-- Destroying the map releases all that it has. -/
theorem Inv.destroy (hi : Inv h S M) :
    ∃ m' log, Returns (fun fuel ↦ (Handled.destroy fuel h).run) (m', log) ∧
      created log = 0 ∧ freed log = heap S ∧ (handled log : Multiset Nat) = held S := by
  have hm : Holds h.mem (tableCells Stored.val Stored.own h.node S + 0) :=
    hi.rep.holds.of_eq (add_zero _).symm
  obtain ⟨m₁, S', hlen, hempty, ⟨N, hN⟩, hm₁⟩ := destroySlots_spec hm hi.rep.ok
  obtain ⟨m', hrun, -⟩ := freeSlots_spec hm₁ hempty
  rw [hi.length] at hlen hN
  rw [hlen] at hrun
  refine ⟨m', _, ⟨N, fun fuel hf ↦ (hN fuel hf).bind_nil (.lift hrun)⟩, ?_, ?_, ?_⟩
  · rw [created_flatMap]
    simp only [created_slotEvents, List.map_const', List.sum_replicate, nsmul_zero]
  · rw [freed_flatMap]
    simp only [freed_slotEvents]
    rfl
  · rw [handled_flatMap]
    simp only [handled_slotEvents]
    rfl

/-! ## Runs -/

/-- What a call does, with the log. -/
def Call.runHandled (alloc : Allocator (Obj Val)) (fuel : Nat) (h : Table) (key : List UInt8) :
    Call → Logged Event (Table × Status)
  | set v => Handled.set alloc fuel h key v
  | rep v => Handled.setRep alloc fuel h key v
  | del => do
    let h ← Handled.del fuel h key
    pure (h, .ok)

/-- Without the log, these are the calls. -/
theorem Call.erases_runHandled (alloc : Allocator (Obj Val)) (fuel : Nat) (h : Table)
    (key : List UInt8) (c : Call) :
    Erases (c.runHandled alloc fuel h key) (c.run alloc fuel h key) := by
  cases c with
  | set v => cases v <;> exact Handled.erases_set ..
  | rep v => cases v <;> exact Handled.erases_setRep ..
  | del => exact .bind (Handled.erases_del ..) fun h ↦ .pure _

/-- The values of type `DL_H_VOID` that the map accepts in a call. -/
def Call.accepted (st : Status) : Call → List Nat
  | set v => Hash.accepted v st
  | rep v => Hash.accepted v st
  | del => []

/-- The values of type `DL_H_VOID` that leave the map in a call, if the key has the values `xs`. -/
def Call.leaving (xs : List Arg) : Call → List Nat
  | set _ => []
  | rep _ => voids xs
  | del => voids xs

/-- The tables that `dl_hash_init` and calls over the keys `K` lead to, with the values that each
key should have, the log, and the values of type `DL_H_VOID` that have been accepted. -/
inductive HandledRun (K : Set (List UInt8)) :
    Table → Multimap Arg → List Event → Multiset Nat → Prop where
  /-- The map has been created. -/
  | init {m : Mem Val} (node slot : Nat) (list : Bool) : m.Finite →
      HandledRun K (init m node slot list) (fun _ ↦ []) [] 0
  /-- There has been a call. -/
  | call {alloc : Allocator (Obj Val)} {h h' : Table} {M : Multimap Arg} {log log' : List Event}
      {acc : Multiset Nat} {key : List UInt8} {c : Call} {st : Status} :
      HandledRun K h M log acc → key ∈ K →
      Returns (fun fuel ↦ (c.runHandled alloc fuel h key).run) ((h', st), log') →
      HandledRun K h' (M.put key (c.stored.after h.list (M key))) (log ++ log')
        (acc + c.accepted st)

/-- What a call changes in the accounts. -/
structure Call.Balances (c : Call) (xs : List Arg) (S S' : List HashSlot) (st : Status)
    (log : List Event) : Prop where
  /-- What leaves the map is passed to the user's function. -/
  handled : handled log = c.leaving xs
  /-- What is created is in the map until it is freed. -/
  heap : heap S' + freed log = heap S + created log
  /-- What is accepted is in the map until it is passed to the user's function. -/
  held : held S' + Hash.handled log = held S + c.accepted st

/-- The accounts of a map: each thing that has been created is freed or still there, and each value
that has been accepted has been passed to the user's function or is still there. -/
structure Balanced (h : Table) (S : List HashSlot) (M : Multimap Arg) (log : List Event)
    (acc : Multiset Nat) : Prop where
  /-- The map holds the values. -/
  inv : Inv h S M
  /-- Nodes and further values. -/
  created : created log = freed log + heap S
  /-- Values of type `DL_H_VOID`. -/
  accepted : acc = handled log + held S

theorem accepted_stored (v : Arg) (st : Status) : accepted v.stored st = accepted v st := by
  cases v <;> rfl

theorem Inv.call_handled (alloc : Allocator (Obj Val)) (hi : Inv h S M)
    (hc : c.ApartFrom key (slotKeys S key)) :
    ∃ h' S' log, Returns (fun fuel ↦ (c.runHandled alloc fuel h key).run)
        ((h', c.stored.status h.list (M key)), log) ∧
      Inv h' S' (M.put key (c.stored.after h.list (M key))) ∧
      c.Balances (M key) S S' (c.stored.status h.list (M key)) log := by
  cases c with
  | set v =>
    obtain ⟨h', S', log, hrun, hi', -, -, hhandled, hfreed, hheap, hheld⟩ :=
      hi.set_handled alloc hc v
    refine ⟨h', S', log, hrun, hi', hhandled, ?_, ?_⟩
    · rw [hfreed, hheap, add_zero]
    · rw [hhandled, hheld, accepted_stored]
      exact add_zero _
  | rep v =>
    obtain ⟨h₁, S₁, log₁, hrun₁, hi₁, hsub, hlist₁, hhandled₁, hcreated₁, hheap₁, hheld₁⟩ :=
      hi.del_handled (clear_of_forall hc)
    obtain ⟨h', S', log₂, hrun₂, hi₂, -, -, hhandled₂, hfreed₂, hheap₂, hheld₂⟩ :=
      hi₁.set_handled alloc (clear_of_forall fun s hs ↦ hc s (hsub.subset hs)) v
    have hnil : M.put key [] key = [] := if_pos rfl
    rw [hnil, Call.status_nil] at hrun₂ hheld₂
    rw [hnil, Call.after_nil] at hi₂
    refine ⟨h', S', log₁ ++ log₂, hrun₁.bind_run hrun₂, ⟨hi₂.rep, hi₂.length, fun k ↦ ?_⟩,
      ?_, ?_, ?_⟩
    · rw [hi₂.values, Multimap.put, Multimap.put, Multimap.put]
      split_ifs
      · rfl
      · rfl
    · rw [handled_append, hhandled₁, hhandled₂]
      exact List.append_nil _
    · rw [freed_append, created_append, hcreated₁, hfreed₂, hheap₁, hheap₂]
      abel
    · rw [handled_append, hhandled₂, List.append_nil, hhandled₁, hheld₂, hheld₁, accepted_stored]
      exact add_right_comm _ _ _
  | del =>
    obtain ⟨h', S', log, hrun, hi', -, -, hhandled, hcreated, hheap, hheld⟩ := hi.del_handled hc
    have hpure : Returns (fun _ ↦ (pure (h', Status.ok) : Logged Event (Table × Status)).run)
        ((h', .ok), []) := ⟨0, fun _ _ ↦ rfl⟩
    have hret := hrun.bind_run (f := fun _ h ↦ pure (h, Status.ok)) hpure
    rw [List.append_nil] at hret
    refine ⟨h', S', log, hret, hi', hhandled, ?_, ?_⟩
    · rw [hcreated, hheap, add_zero]
    · rw [hhandled, hheld]
      exact (add_zero _).symm

/-- A call keeps the accounts balanced. -/
theorem Balanced.call (hb : Balanced h S M log acc) (hi : Inv h' S' M')
    (hc : c.Balances xs S S' st log') : Balanced h' S' M' (log ++ log') (acc + c.accepted st) where
  inv := hi
  created := by
    rw [created_append, freed_append, hb.created, add_assoc, ← hc.heap]
    abel
  accepted := by
    rw [handled_append, hb.accepted, ← Multiset.coe_add, add_assoc, ← hc.held]
    abel

/-- The keys with values have been set. -/
theorem HandledRun.mem_of_ne_nil (hrun : HandledRun K h M log acc) (k : List UInt8)
    (hk : M k ≠ []) : k ∈ K := by
  induction hrun with
  | init => exact absurd rfl hk
  | call hrun hkey hret ih =>
    rw [Multimap.put] at hk
    split_ifs at hk with heq
    · rwa [heq]
    · exact ih hk

/-- In every run the accounts are balanced. -/
theorem HandledRun.balanced (hK : PrefixFree K) (hrun : HandledRun K h M log acc) :
    ∃ S, Balanced h S M log acc := by
  induction hrun with
  | init node slot list hm =>
    obtain ⟨S, hi, hempty⟩ := inv_init node slot list hm
    have hzero : ∀ f : HashSlot → Multiset Nat, (∀ s : HashSlot, s.items = [] → f s = 0) →
        (S.map f).sum = 0 := fun f hf ↦ List.sum_eq_zero fun x hx ↦ by
      obtain ⟨s, hs, rfl⟩ := List.mem_map.mp hx
      exact hf s (hempty s hs)
    refine ⟨S, hi, ?_, ?_⟩
    · refine (hzero Slot.heap fun s hs ↦ ?_).symm.trans (zero_add _).symm
      rw [Slot.heap, hs]
      rfl
    · refine (hzero slotHeld fun s hs ↦ ?_).symm.trans (zero_add _).symm
      rw [slotHeld, hs]
      rfl
  | @call alloc h h' M log log' acc key c st hrun hkey hret ih =>
    obtain ⟨S, hb⟩ := ih
    obtain ⟨h₁, S', log₁, hret', hi', hc⟩ :=
      hb.inv.call_handled alloc (hK.apartFrom hrun.mem_of_ne_nil hb.inv hkey)
    obtain ⟨heq, rfl⟩ := Prod.mk.inj (hret.unique hret')
    obtain ⟨rfl, rfl⟩ := Prod.mk.inj heq
    exact ⟨S', hb.call hi' hc⟩

/-- In a run over keys of which none begins with another, what leaves the map in a call is passed
to the user's function by this call.  When the map is destroyed, each value of type `DL_H_VOID`
that has been accepted has been passed to the user's function once, and each node and each further
value that has been created has been freed once. -/
theorem released_exactly_once (hK : PrefixFree K) (hrun : HandledRun K h M log acc) :
    Refines Decodes h.mem h.node h.slotTotal M ∧
      (∀ alloc (c : Call), ∀ key ∈ K, ∃ h' st log',
        Returns (fun fuel ↦ (c.runHandled alloc fuel h key).run) ((h', st), log') ∧
          handled log' = c.leaving (M key)) ∧
      ∃ m' log', Returns (fun fuel ↦ (Handled.destroy fuel h).run) (m', log') ∧
        (handled (log ++ log') : Multiset Nat) = acc ∧
        created (log ++ log') = freed (log ++ log') := by
  obtain ⟨S, hb⟩ := hrun.balanced hK
  refine ⟨hb.inv.refines, fun alloc c key hkey ↦ ?_, ?_⟩
  · obtain ⟨h', S', log', hret, -, hc⟩ :=
      hb.inv.call_handled alloc (c := c) (hK.apartFrom hrun.mem_of_ne_nil hb.inv hkey)
    exact ⟨h', _, log', hret, hc.handled⟩
  · obtain ⟨m', log', hret, hcreated, hfreed, hhandled⟩ := hb.inv.destroy
    refine ⟨m', log', hret, ?_, ?_⟩
    · rw [handled_append, ← Multiset.coe_add, hhandled, hb.accepted]
    · rw [created_append, freed_append, hb.created, hcreated, hfreed, add_zero]

/-- A pointer that is set, replaced and released when the map is destroyed. -/
theorem released_exactly_once_two : ∃ h M log, HandledRun {[97]} h M log ({5} + {7}) ∧
    ∃ m' log', Returns (fun fuel ↦ (Handled.destroy fuel h).run) (m', log') ∧
      (handled (log ++ log') : Multiset Nat) = {5} + {7} := by
  have hK : PrefixFree {[97]} := fun a ha b hb _ ↦ ha.trans hb.symm
  have hinit : HandledRun {[97]} (init (fun _ ↦ none) 1 2 false) (fun _ ↦ []) [] 0 :=
    .init _ _ _ ⟨0, fun _ _ ↦ rfl⟩
  obtain ⟨S, hb⟩ := hinit.balanced hK
  obtain ⟨h₁, S₁, log₁, hret₁, -⟩ := hb.inv.call_handled (.least _) (c := .set (.void 5))
    (hK.apartFrom hinit.mem_of_ne_nil hb.inv rfl)
  have hrun₁ := hinit.call rfl hret₁
  obtain ⟨S₁, hb₁⟩ := hrun₁.balanced hK
  obtain ⟨h₂, S₂, log₂, hret₂, -⟩ := hb₁.inv.call_handled (.least _) (c := .rep (.void 7))
    (hK.apartFrom hrun₁.mem_of_ne_nil hb₁.inv rfl)
  have hrun₂ := hrun₁.call rfl hret₂
  obtain ⟨-, -, m', log', hret, hhandled, -⟩ := released_exactly_once hK hrun₂
  exact ⟨h₂, _, _, hrun₂, m', log', hret, hhandled⟩

end Dlbase.Hash
