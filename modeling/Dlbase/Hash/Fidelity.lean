import Dlbase.Hash.Runs

/-!
# What becomes of a value

Of a `long` only the part that fits in an `int` is stored; strings and pointers are stored as they
are.  A value that is stored for an absent key stays the first one of its key until the key is
deleted or replaced, whatever is done with the other keys.
-/

namespace Dlbase.Hash

open Cmem

variable {h h' : Table} {key k : List UInt8} {v : Arg} {M : Multimap Arg} {S : List HashSlot}
  {K : Set (List UInt8)}

/-- The call with the value that it stores. -/
def Call.stored : Call → Call
  | set v => .set v.stored
  | rep v => .rep v.stored
  | del => .del

/-- The tables that `dl_hash_init` and calls for the keys in `K` lead to; integers may be of any
size. -/
inductive Reached (K : Set (List UInt8)) : Table → Prop where
  /-- The map has been created. -/
  | init {m : Mem Val} (node slot : Nat) (list : Bool) : m.Finite → Reached K (init m node slot list)
  /-- There has been a call. -/
  | call {alloc : Allocator (Obj Val)} {h h' : Table} {k : List UInt8} {c : Call} {st : Status} :
      Reached K h → k ∈ K → Returns (fun fuel ↦ c.run alloc fuel h k) (h', st) → Reached K h'

/-- A setter was called with the value `v` for a key that was absent, and since then the key has
not been deleted or replaced. -/
inductive Kept (K : Set (List UInt8)) (key : List UInt8) (v : Arg) : Table → Prop where
  /-- The setter has returned. -/
  | set {alloc : Allocator (Obj Val)} {h h' : Table} {c : Call} : Reached K h →
      Returns (fun fuel ↦ find fuel h key) none → c = .set v ∨ c = .rep v →
      Returns (fun fuel ↦ c.run alloc fuel h key) (h', .ok) → Kept K key v h'
  /-- There has been another call. -/
  | call {alloc : Allocator (Obj Val)} {h h' : Table} {k : List UInt8} {c : Call} {st : Status} :
      Kept K key v h → k ∈ K → (k = key → ∃ w, c = .set w) →
      Returns (fun fuel ↦ c.run alloc fuel h k) (h', st) → Kept K key v h'

/-- `dl_hash_find` yields the value as the first one of the key, with its tag. -/
def FirstValue (h : Table) (key : List UInt8) (v : Arg) : Prop :=
  ∃ a n x, Returns (fun fuel ↦ find fuel h key) (some a) ∧ loadNode h.mem (some a) = .ok n ∧
    n.v.v = some x ∧ Decodes h.mem x v

/-- The table holds the values `M` of keys in `K`. -/
def HoldsIn (K : Set (List UInt8)) (h : Table) (M : Multimap Arg) : Prop :=
  (∃ S, Inv h S M) ∧ ∀ k, M k ≠ [] → k ∈ K

/-! ## Stored values -/

theorem inRange_stored (v : Arg) : v.stored.InRange := by
  cases v with
  | int n =>
    have hlo : -(2 ^ 32 / 2 : Int) ≤ n.bmod (2 ^ 32) := Int.le_bmod (by decide)
    have hhi : n.bmod (2 ^ 32) < ((2 ^ 32 + 1) / 2 : Int) := Int.bmod_lt (by decide)
    exact ⟨by unfold toInt; omega, by unfold toInt; omega⟩
  | str s => trivial
  | void p => trivial

theorem stored_stored (v : Arg) : v.stored.stored = v.stored := stored_eq (inRange_stored v)

/-- Just the values in range are stored as they are. -/
theorem stored_eq_iff : v.stored = v ↔ v.InRange :=
  ⟨fun hv ↦ hv ▸ inRange_stored v, stored_eq⟩

theorem Call.inRange_stored (c : Call) : c.stored.InRange := by
  cases c with
  | set v => exact Hash.inRange_stored v
  | rep v => exact Hash.inRange_stored v
  | del => trivial

theorem fillV_stored (alloc : Allocator (Obj Val)) (m : Mem Val) (v : Arg) :
    fillV alloc m v.stored = fillV alloc m v := by
  cases v with
  | int n =>
    have hn : (Arg.int n).stored.stored = (Arg.int n).stored := stored_stored _
    have htoInt : toInt (toInt n) = toInt n := Arg.int.inj hn
    exact congrArg (fun x ↦ (m, Val.int x)) htoInt
  | str s => rfl
  | void p => rfl

/-- A setter does with a value what it does with the value that it stores. -/
theorem set_stored (alloc : Allocator (Obj Val)) (fuel : Nat) (h : Table) (key : List UInt8)
    (v : Arg) : set alloc fuel h key v.stored = set alloc fuel h key v := by
  unfold set setNew chainValue fillNode
  simp only [fillV_stored]

theorem Call.run_stored (alloc : Allocator (Obj Val)) (fuel : Nat) (h : Table) (key : List UInt8)
    (c : Call) : c.stored.run alloc fuel h key = c.run alloc fuel h key := by
  have hset : ∀ v, setter alloc fuel h key v = Hash.set alloc fuel h key v := fun v ↦ by
    cases v <;> rfl
  have hrep : ∀ v, repSetter alloc fuel h key v = setRep alloc fuel h key v := fun v ↦ by
    cases v <;> rfl
  cases c with
  | set v =>
    change setter alloc fuel h key v.stored = setter alloc fuel h key v
    rw [hset, hset, set_stored]
  | rep v =>
    change repSetter alloc fuel h key v.stored = repSetter alloc fuel h key v
    rw [hrep, hrep]
    unfold setRep
    simp only [set_stored]
  | del => rfl

/-! ## First values -/

theorem Decodes.unique {m : Mem Val} {x : Val} {v w : Arg} (hv : Decodes m x v)
    (hw : Decodes m x w) : v = w := by
  cases x with
  | int n => exact hv.trans hw.symm
  | void p => exact hv.trans hw.symm
  | str p =>
    obtain ⟨s, hs, rfl⟩ := hv
    obtain ⟨t, ht, rfl⟩ := hw
    exact congrArg Arg.str (Except.ok.inj (hs.symm.trans ht))

/-- The first value of a key is the one that is found. -/
theorem Finds.firstValue_iff {w : Arg} {ws : List Arg} (hf : Finds h M key) (hM : M key = w :: ws) :
    FirstValue h key v ↔ v = w := by
  obtain ⟨o, hret, hnone, hsome⟩ := hf
  obtain ⟨a, rfl⟩ : ∃ a, o = some a := Option.ne_none_iff_exists'.mp fun ho ↦ by
    rw [hnone.mp ho] at hM
    cases hM
  obtain ⟨-, -, n, x, w', rest, hload, hx, hdec, -, heq⟩ := hsome a rfl
  obtain ⟨rfl, -⟩ := List.cons.inj (hM.symm.trans heq)
  constructor
  · rintro ⟨b, n', x', hret', hload', hx', hdec'⟩
    obtain rfl := Option.some.inj (hret.unique hret')
    obtain rfl := Except.ok.inj (hload.symm.trans hload')
    obtain rfl := Option.some.inj (hx.symm.trans hx')
    exact hdec'.unique hdec
  · rintro rfl
    exact ⟨a, n, x, hret, hload, hx, hdec⟩

/-- Calls that do not delete a key keep its first value. -/
theorem Call.head?_after {c : Call} {list : Bool} {xs : List Arg} {w : Arg} (hw : xs.head? = some w)
    (hc : ∃ u, c = .set u) : (c.after list xs).head? = some w := by
  obtain ⟨u, rfl⟩ := hc
  unfold Call.after
  split_ifs
  · cases xs with
    | nil => cases hw
    | cons x xs => exact hw
  · exact hw

/-! ## Runs -/

/-- A call for a key in `K`. -/
theorem HoldsIn.call {alloc : Allocator (Obj Val)} {c : Call} {st : Status} (hK : PrefixFree K)
    (hi : HoldsIn K h M) (hk : key ∈ K)
    (hret : Returns (fun fuel ↦ c.run alloc fuel h key) (h', st)) :
    HoldsIn K h' (M.put key (c.stored.after h.list (M key))) := by
  obtain ⟨⟨S, hi⟩, hM⟩ := hi
  have hsep : ∀ s ∈ slotKeys S key, Separate s key := fun s hs ↦
    hK.separate (hM s (hi.values_ne_nil hs)) hk
  have hapart : c.stored.ApartFrom key (slotKeys S key) := by
    cases c with
    | rep v => exact hsep
    | set v => exact clear_of_forall hsep
    | del => exact clear_of_forall hsep
  obtain ⟨h₁, S', hret', hi', -⟩ := hi.call alloc hapart c.inRange_stored
  simp only [Call.run_stored] at hret'
  obtain ⟨rfl, -⟩ := Prod.mk.inj (hret.unique hret')
  refine ⟨⟨S', hi'⟩, fun k hne ↦ ?_⟩
  rw [Multimap.put] at hne
  split_ifs at hne with heq
  · rwa [heq]
  · exact hM k hne

theorem HoldsIn.finds (hK : PrefixFree K) (hi : HoldsIn K h M) (hk : key ∈ K) : Finds h M key := by
  obtain ⟨⟨S, hi⟩, hM⟩ := hi
  exact hi.find (clear_of_forall fun s hs ↦ hK.separate (hM s (hi.values_ne_nil hs)) hk)

theorem Reached.holdsIn (hK : PrefixFree K) (hr : Reached K h) : ∃ M, HoldsIn K h M := by
  induction hr with
  | init node slot list hm =>
    obtain ⟨S, hi, -⟩ := inv_init node slot list hm
    exact ⟨_, ⟨S, hi⟩, fun k hne ↦ absurd rfl hne⟩
  | call hr hk hret ih =>
    obtain ⟨M, hi⟩ := ih
    exact ⟨_, hi.call hK hk hret⟩

/-- The value that has been stored stays the first one of its key. -/
theorem Kept.holdsIn (hK : PrefixFree K) (hk : key ∈ K) (hr : Kept K key v h) :
    ∃ M, HoldsIn K h M ∧ (M key).head? = some v.stored := by
  induction hr with
  | @set alloc h h' c hr habsent hc hret =>
    obtain ⟨M, hi⟩ := hr.holdsIn hK
    obtain ⟨o, hfind, hnone, -⟩ := hi.finds hK hk
    have hnil : M key = [] := hnone.mp (hfind.unique habsent)
    refine ⟨_, hi.call hK hk hret, ?_⟩
    rw [Multimap.put, if_pos rfl, hnil]
    rcases hc with rfl | rfl
    · rw [Call.stored, Call.after_nil]
      rfl
    · rfl
  | @call alloc h h' k c st hr hkK hc hret ih =>
    obtain ⟨M, hi, hhead⟩ := ih
    refine ⟨_, hi.call hK hkK hret, ?_⟩
    rw [Multimap.put]
    split_ifs with heq
    · refine Call.head?_after (heq ▸ hhead) ?_
      obtain ⟨w, rfl⟩ := hc heq.symm
      exact ⟨w.stored, rfl⟩
    · exact hhead

/-- The first value that is found is the one that has been stored. -/
theorem Kept.firstValue_iff (hK : PrefixFree K) (hk : key ∈ K) (hr : Kept K key v h) {w : Arg} :
    FirstValue h key w ↔ w = v.stored := by
  obtain ⟨M, hi, hhead⟩ := hr.holdsIn hK hk
  obtain ⟨ws, hws⟩ := List.head?_eq_some_iff.mp hhead
  exact (hi.finds hK hk).firstValue_iff hws

/-- Every value can be stored. -/
theorem exists_kept (v : Arg) : ∃ h, Kept {[97]} [97] v h := by
  have hK : PrefixFree {[97]} := fun a ha b hb _ ↦ ha.trans hb.symm
  have hinit : Reached {[97]} (init (fun _ ↦ none) 1 2 false) := .init _ _ _ ⟨0, fun _ _ ↦ rfl⟩
  obtain ⟨S, hi, -⟩ := inv_init 1 2 false ⟨0, fun _ _ ↦ rfl⟩
  have hnil : slotKeys S [97] = [] :=
    List.eq_nil_iff_forall_not_mem.mpr fun k hk ↦ hi.values_ne_nil hk rfl
  have hclear : Clear [97] (slotKeys S [97]) := by
    rw [hnil]
    trivial
  obtain ⟨o, hfind, hnone, -⟩ := hi.find hclear
  rw [hnone.mpr rfl] at hfind
  have hapart : (Call.set v.stored).ApartFrom [97] (slotKeys S [97]) := by
    rw [hnil]
    exact Call.apartFrom_nil
  obtain ⟨h, S', hret, -⟩ := hi.call (.least _) hapart (Call.inRange_stored (.set v))
  rw [Call.status, if_pos (.inl rfl)] at hret
  have hset : Returns (fun fuel ↦ (Call.set v).run (.least _) fuel _ [97]) (h, .ok) :=
    (funext fun fuel ↦ Call.run_stored (.least _) fuel _ [97] (.set v)) ▸ hret
  exact ⟨h, .set hinit hfind (.inl rfl) hset⟩

end Dlbase.Hash
