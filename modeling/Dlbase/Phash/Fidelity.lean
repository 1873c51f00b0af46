import Dlbase.Phash.Runs
import Dlbase.Hash.Fidelity

/-!
# What becomes of a value of the map in a pool

The map stores of a `long` what fits in an `int`, too.  It keeps the pointer to a string and never
writes to a string.
-/

namespace Dlbase.Phash

open Cmem Hash

variable {h h' : Table} {key k : List UInt8} {v : Val} {M : Multimap Val} {S : List PoolSlot}
  {K : Set (List UInt8)}

/-- The tables that `dl_phash_init` and setters for the keys in `K` lead to; integers may be of any
size. -/
inductive Reached (K : Set (List UInt8)) : Table → Prop where
  /-- The map has been created. -/
  | init {m : Mem Val} (node slot : Nat) (unique replace : Bool) : m.Finite →
      Reached K (init m node slot unique replace)
  /-- A key has been set. -/
  | set {alloc : Allocator (Obj Val)} {h h' : Table} {k : List UInt8} {w : Val} {st : Status} :
      Reached K h → k ∈ K → Returns (fun fuel ↦ setter alloc fuel h k w) (h', st) → Reached K h'

/-- In the memory `m` a setter was called with the value `v` for a key that was absent, and since
then the values of the key have not been replaced. -/
inductive Kept (K : Set (List UInt8)) (key : List UInt8) (v : Val) (m : Mem Val) : Table → Prop where
  /-- The setter has returned. -/
  | set {alloc : Allocator (Obj Val)} {h h' : Table} : Reached K h →
      Returns (fun fuel ↦ find fuel h key) none → h.mem = m →
      Returns (fun fuel ↦ setter alloc fuel h key v) (h', .ok) → Kept K key v m h'
  /-- Another setter has been called. -/
  | call {alloc : Allocator (Obj Val)} {h h' : Table} {k : List UInt8} {w : Val} {st : Status} :
      Kept K key v m h → k ∈ K → (k = key → h.unique ∨ ¬ h.replace) →
      Returns (fun fuel ↦ setter alloc fuel h k w) (h', st) → Kept K key v m h'

/-- The strings in the memory `m` are also there in the memory `m'`. -/
def SameStrings (m m' : Mem Val) : Prop :=
  ∀ p s, loadStr m (some p) = .ok s → loadStr m' (some p) = .ok s

/-- `dl_phash_find` yields the value as the first one of the key, with its tag; a string is the one
that was there in the memory `m`. -/
def FirstValue (m : Mem Val) (h : Table) (key : List UInt8) (v : Val) : Prop :=
  ∃ a n, Returns (fun fuel ↦ find fuel h key) (some a) ∧ loadNode h.mem (some a) = .ok n ∧
    n.v.v = some v ∧ ∀ p s, v = .str p → loadStr m (some p) = .ok s →
      loadStr h.mem (some p) = .ok s

/-- The table holds the values `M` of keys in `K`. -/
def HoldsIn (K : Set (List UInt8)) (h : Table) (M : Multimap Val) : Prop :=
  (∃ S, Inv h S M) ∧ ∀ k, M k ≠ [] → k ∈ K

/-! ## Stored values -/

theorem inRange_pfillV (v : Val) : (pfillV v).InRange := by
  cases v with
  | int n =>
    have hlo : -(2 ^ 32 / 2 : Int) ≤ n.bmod (2 ^ 32) := Int.le_bmod (by decide)
    have hhi : n.bmod (2 ^ 32) < ((2 ^ 32 + 1) / 2 : Int) := Int.bmod_lt (by decide)
    exact ⟨by unfold toInt; omega, by unfold toInt; omega⟩
  | str p => trivial
  | void p => trivial

/-- Just the values in range are stored as they are. -/
theorem pfillV_eq_iff : pfillV v = v ↔ v.InRange := ⟨fun hv ↦ hv ▸ inRange_pfillV v, pfillV_eq⟩

/-- A setter does with a value what it does with the value that it stores. -/
theorem setter_pfillV (alloc : Allocator (Obj Val)) (fuel : Nat) (h : Table) (key : List UInt8)
    (v : Val) : setter alloc fuel h key (pfillV v) = setter alloc fuel h key v := by
  have hset : ∀ w, setter alloc fuel h key w = setKey alloc fuel h key w := fun w ↦ by
    cases w <;> rfl
  rw [hset, hset]
  unfold setKey set setNew replaceNode chainValue pfillNode
  simp only [pfillV_eq (inRange_pfillV v)]

/-! ## Strings -/

theorem loadStr_eq_ok {m : Mem Val} {a : Nat} {s : List UInt8} :
    loadStr m (some a) = .ok s ↔ m a = some (.str s) := by
  change (m.get a >>= _) = _ ↔ _
  rw [Objects.get]
  rcases m a with - | (n | w | t) <;> simp

theorem loadNode_eq_ok {m : Mem Val} {a : Nat} {n : Node Val} :
    loadNode m (some a) = .ok n ↔ m a = some (.node n) := by
  change (m.get a >>= _) = _ ↔ _
  rw [Objects.get]
  rcases m a with - | (n | w | t) <;> simp

namespace SameStrings

variable {m m' m'' : Mem Val} {a : Nat}

theorem refl (m : Mem Val) : SameStrings m m := fun _ _ h ↦ h

theorem trans (h : SameStrings m m') (h' : SameStrings m' m'') : SameStrings m m'' :=
  fun p s hs ↦ h' p s (h p s hs)

theorem of_ne {o : Obj Val} (ha : ∀ s, m a ≠ some (.str s)) : SameStrings m (m.set a o) := by
  intro p s hs
  rw [loadStr_eq_ok] at hs ⊢
  have hne : p ≠ a := by
    rintro rfl
    exact ha s hs
  rwa [Objects.set, Function.update_of_ne hne]

theorem alloc (hm : m.Finite) (alloc : Allocator (Obj Val)) (o : Obj Val) :
    SameStrings m (m.set (alloc.run m) o) := of_ne fun s hs ↦ by
  rw [alloc.fresh m hm] at hs
  cases hs

/-- A node is written to. -/
theorem put {n : Node Val} {o : Obj Val} (hn : loadNode m (some a) = .ok n)
    (hput : m.put a o = .ok m') : SameStrings m m' := by
  rw [loadNode_eq_ok] at hn
  rw [Objects.put, if_neg (hn ▸ Option.some_ne_none _)] at hput
  obtain rfl := Except.ok.inj hput
  refine of_ne fun s hs ↦ ?_
  cases hn.symm.trans hs

end SameStrings

/-- Another node can still be read after an allocation. -/
theorem loadNode_alloc {m : Mem Val} {a : Nat} {n : Node Val} (hm : m.Finite)
    (alloc : Allocator (Obj Val)) (o : Obj Val) (hn : loadNode m (some a) = .ok n) :
    loadNode (m.set (alloc.run m) o) (some a) = .ok n := by
  rw [loadNode_eq_ok] at hn ⊢
  have hne : a ≠ alloc.run m := by
    rintro rfl
    cases hn.symm.trans (alloc.fresh m hm)
  rwa [Objects.set, Function.update_of_ne hne]

/-- `dl_phash_set` writes to no string. -/
theorem sameStrings_set {alloc : Allocator (Obj Val)} {fuel kp : Nat} {st : Status}
    (hm : h.mem.Finite) (hset : set alloc fuel h kp v = .ok (h', st)) :
    SameStrings h.mem h'.mem := by
  have hcount : ∀ {m}, h.count m = .ok (h', st) → h'.mem = m := fun {m} hc ↦ by
    unfold Table.count at hc
    split_ifs at hc
    · obtain ⟨rfl, -⟩ := Prod.mk.inj (Except.ok.inj hc)
      rfl
    · cases hc
  unfold set at hset
  obtain ⟨s, -, hset⟩ := Exec.bind_eq_ok.mp hset
  obtain ⟨node, hnode, hset⟩ := Exec.bind_eq_ok.mp hset
  by_cases hv : node.v.v = none
  · rw [if_pos hv] at hset
    obtain ⟨m₁, hput, hset⟩ := Exec.bind_eq_ok.mp hset
    rw [hcount hset]
    exact .put hnode hput
  · rw [if_neg hv] at hset
    obtain ⟨o, -, hset⟩ := Exec.bind_eq_ok.mp hset
    cases o with
    | none =>
      obtain ⟨m₁, hnew, hset⟩ := Exec.bind_eq_ok.mp hset
      rw [hcount hset]
      unfold setNew at hnew
      obtain ⟨m₂, hput₂, hnew⟩ := Exec.bind_eq_ok.mp hnew
      obtain ⟨nn, hnn, hput₁⟩ := Exec.bind_eq_ok.mp hnew
      exact ((SameStrings.alloc hm alloc _).trans (.put (loadNode_alloc hm alloc _ hnode) hput₂)).trans
        (.put hnn hput₁)
    | some n =>
      dsimp only at hset
      by_cases hu : h.unique = true
      · rw [if_pos hu] at hset
        obtain ⟨rfl, -⟩ := Prod.mk.inj (Except.ok.inj hset)
        exact .refl _
      rw [if_neg hu] at hset
      by_cases hr : h.replace = true
      · rw [if_pos hr] at hset
        obtain ⟨m₁, hrep, hset⟩ := Exec.bind_eq_ok.mp hset
        obtain ⟨rfl, -⟩ := Prod.mk.inj (Except.ok.inj hset)
        unfold replaceNode at hrep
        obtain ⟨nn, hnn, hput⟩ := Exec.bind_eq_ok.mp hrep
        exact .put hnn hput
      · rw [if_neg hr] at hset
        obtain ⟨m₁, hchain, hset⟩ := Exec.bind_eq_ok.mp hset
        rw [hcount hset]
        unfold chainValue at hchain
        obtain ⟨nn, hnn, hput⟩ := Exec.bind_eq_ok.mp hchain
        exact (SameStrings.alloc hm alloc _).trans (.put (loadNode_alloc hm alloc _ hnn) hput)

/-- No setter writes to a string. -/
theorem sameStrings_setter {alloc : Allocator (Obj Val)} {st : Status} (hm : h.mem.Finite)
    (hret : Returns (fun fuel ↦ setter alloc fuel h key v) (h', st)) :
    SameStrings h.mem h'.mem := by
  obtain ⟨fuel, hrun⟩ := hret.exists_fuel
  have hset : setKey alloc fuel h key v = .ok (h', st) := by
    cases v <;> exact hrun
  have hstr : SameStrings h.mem (h.mem.set (alloc.run h.mem) (.str key)) := .alloc hm alloc _
  exact hstr.trans (sameStrings_set (Holds.finite_set hm _ _) hset)

/-! ## Runs -/

/-- A setter for a key in `K`. -/
theorem HoldsIn.set {alloc : Allocator (Obj Val)} {st : Status} (hK : PrefixFree K)
    (hi : HoldsIn K h M) (hk : key ∈ K)
    (hret : Returns (fun fuel ↦ setter alloc fuel h key v) (h', st)) :
    HoldsIn K h' (M.put key (h.after (pfillV v) (M key))) ∧ h.mem.Finite := by
  obtain ⟨⟨S, hi⟩, hM⟩ := hi
  have hc : Clear key (slotKeys S key) := clear_of_forall fun s hs ↦
    hK.separate (hM s (hi.values_ne_nil hs)) hk
  obtain ⟨h₁, S', N, hset, hi', -⟩ := hi.set alloc hc (inRange_pfillV v)
  obtain ⟨N', hN'⟩ := hret
  have heq := (hset (max N N') (Nat.le_max_left N N')).symm.trans
    ((setter_pfillV alloc _ h key v).trans (hN' (max N N') (Nat.le_max_right N N')))
  have hfinite := hi.rep.holds.finite
  have hlt : h.elSum + h.added (M key) < 2 ^ 31 := by
    by_contra hge
    rw [if_neg hge] at heq
    cases heq
  rw [if_pos hlt] at heq
  obtain ⟨rfl, -⟩ := Prod.mk.inj (Except.ok.inj heq)
  refine ⟨⟨⟨S', hi' hlt⟩, fun k hne ↦ ?_⟩, hfinite⟩
  rw [Multimap.put] at hne
  split_ifs at hne with heq
  · rwa [heq]
  · exact hM k hne

theorem HoldsIn.finds (hK : PrefixFree K) (hi : HoldsIn K h M) (hk : key ∈ K) : Finds h M key := by
  obtain ⟨⟨S, hi⟩, hM⟩ := hi
  exact hi.find (clear_of_forall fun s hs ↦ hK.separate (hM s (hi.values_ne_nil hs)) hk)

theorem Reached.holdsIn (hK : PrefixFree K) (hr : Reached K h) : ∃ M, HoldsIn K h M := by
  induction hr with
  | init node slot unique replace hm =>
    exact ⟨_, inv_init node slot unique replace hm, fun k hne ↦ absurd rfl hne⟩
  | set hr hk hret ih =>
    obtain ⟨M, hi⟩ := ih
    exact ⟨_, (hi.set hK hk hret).1⟩

/-- Unless values are replaced, the first one stays. -/
theorem head?_after {w : Val} {xs : List Val} (hw : xs.head? = some w)
    (hm : h.unique ∨ ¬ h.replace) (u : Val) : (h.after u xs).head? = some w := by
  cases xs with
  | nil => cases hw
  | cons x xs =>
    unfold Table.after Table.again
    rcases hm with hu | hr
    · rw [if_neg (List.cons_ne_nil _ _), if_pos hu]
      exact hw
    · rw [if_neg (List.cons_ne_nil _ _), if_neg hr]
      split_ifs <;> exact hw

/-- The value that has been stored stays the first one of its key. -/
theorem Kept.holdsIn {m : Mem Val} (hK : PrefixFree K) (hk : key ∈ K) (hr : Kept K key v m h) :
    ∃ M, HoldsIn K h M ∧ (M key).head? = some (pfillV v) ∧ SameStrings m h.mem := by
  induction hr with
  | @set alloc h h' hr habsent hm hret =>
    obtain ⟨M, hi⟩ := hr.holdsIn hK
    obtain ⟨o, hfind, hnone, -⟩ := hi.finds hK hk
    have hnil : M key = [] := hnone.mp (hfind.unique habsent)
    obtain ⟨hi', hfinite⟩ := hi.set hK hk hret
    refine ⟨_, hi', ?_, hm ▸ sameStrings_setter hfinite hret⟩
    rw [Multimap.put, if_pos rfl, hnil, Table.after, if_pos rfl]
    rfl
  | @call alloc h h' k w st hr hkK hc hret ih =>
    obtain ⟨M, hi, hhead, hsame⟩ := ih
    obtain ⟨hi', hfinite⟩ := hi.set hK hkK hret
    refine ⟨_, hi', ?_, hsame.trans (sameStrings_setter hfinite hret)⟩
    rw [Multimap.put]
    split_ifs with heq
    · exact head?_after (heq ▸ hhead) (hc heq.symm) _
    · exact hhead

/-- The first value that is found is the one that has been stored. -/
theorem Kept.firstValue_iff {m : Mem Val} {w : Val} (hK : PrefixFree K) (hk : key ∈ K)
    (hr : Kept K key v m h) : FirstValue m h key w ↔ w = pfillV v := by
  obtain ⟨M, hi, hhead, hsame⟩ := hr.holdsIn hK hk
  obtain ⟨ws, hws⟩ := List.head?_eq_some_iff.mp hhead
  obtain ⟨o, hret, hnone, hsome⟩ := hi.finds hK hk
  obtain ⟨a, rfl⟩ : ∃ a, o = some a := Option.ne_none_iff_exists'.mp fun ho ↦ by
    rw [hnone.mp ho] at hws
    cases hws
  obtain ⟨-, -, n, x, w', rest, hload, hx, hdec, -, heq⟩ := hsome a rfl
  obtain ⟨rfl, -⟩ := List.cons.inj (hws.symm.trans heq)
  obtain rfl : x = pfillV v := hdec
  constructor
  · rintro ⟨b, n', hret', hload', hx', -⟩
    obtain rfl := Option.some.inj (hret.unique hret')
    obtain rfl := Except.ok.inj (hload.symm.trans hload')
    exact Option.some.inj (hx'.symm.trans hx)
  · rintro rfl
    exact ⟨a, n, hret, hload, hx, fun p s _ hs ↦ hsame p s hs⟩

/-- In both maps the value that is found first is just the one that was set, unless it is an integer
out of the range of an `int`. -/
theorem first_value_iff (hK : PrefixFree K) (hk : key ∈ K) :
    (∀ v h, Hash.Kept K key v h → (Hash.FirstValue h key v ↔ v.InRange)) ∧
      ∀ v m h, Kept K key v m h → (FirstValue m h key v ↔ v.InRange) := by
  refine ⟨fun v h hr ↦ ?_, fun v m h hr ↦ ?_⟩
  · rw [hr.firstValue_iff hK hk, eq_comm, stored_eq_iff]
  · rw [hr.firstValue_iff hK hk, eq_comm, pfillV_eq_iff]

/-- Every value can be stored. -/
theorem exists_kept (v : Val) : ∃ m h, Kept {[97]} [97] v m h := by
  have hinit : Reached {[97]} (init (fun _ ↦ none) 1 2 false false) :=
    .init _ _ _ _ ⟨0, fun _ _ ↦ rfl⟩
  obtain ⟨S, hi⟩ := inv_init 1 2 false false ⟨0, fun _ _ ↦ rfl⟩
  have hnil : slotKeys S [97] = [] :=
    List.eq_nil_iff_forall_not_mem.mpr fun k hk ↦ hi.values_ne_nil hk rfl
  have hclear : Clear [97] (slotKeys S [97]) := by
    rw [hnil]
    trivial
  obtain ⟨o, hfind, hnone, -⟩ := hi.find hclear
  rw [hnone.mpr rfl] at hfind
  obtain ⟨h, S', N, hrun, -⟩ := hi.set (.least _) hclear (inRange_pfillV v)
  have hset : Returns (fun fuel ↦ setter (.least _) fuel _ [97] v) (h, .ok) :=
    ⟨N, fun fuel hf ↦ (setter_pfillV _ fuel _ [97] v).symm.trans (hrun fuel hf)⟩
  exact ⟨_, h, .set hinit hfind rfl hset⟩

/-- A number is found again. -/
theorem first_value_iff_five : ∃ h, Hash.Kept {[97]} [97] (.int 5) h ∧
    Hash.FirstValue h [97] (.int 5) := by
  obtain ⟨h, hr⟩ := Hash.exists_kept (.int 5)
  have hK : PrefixFree {[97]} := fun a ha b hb _ ↦ ha.trans hb.symm
  exact ⟨h, hr, ((first_value_iff hK rfl).1 _ h hr).mpr ⟨by decide, by decide⟩⟩

/-- The number `2 ^ 31` is stored, and another one is found. -/
theorem first_value_cut :
    (∃ h, Hash.Kept {[97]} [97] (.int (2 ^ 31)) h ∧ ¬ Hash.FirstValue h [97] (.int (2 ^ 31)) ∧
      Hash.FirstValue h [97] (.int (-2 ^ 31))) ∧
    ∃ m h, Kept {[97]} [97] (.int (2 ^ 31)) m h ∧ ¬ FirstValue m h [97] (.int (2 ^ 31)) ∧
      FirstValue m h [97] (.int (-2 ^ 31)) := by
  have hK : PrefixFree {[97]} := fun a ha b hb _ ↦ ha.trans hb.symm
  obtain ⟨h, hr⟩ := Hash.exists_kept (.int (2 ^ 31))
  obtain ⟨m, h', hr'⟩ := exists_kept (.int (2 ^ 31))
  refine ⟨⟨h, hr, ?_, ?_⟩, m, h', hr', ?_, ?_⟩
  · rw [hr.firstValue_iff hK rfl]
    decide
  · rw [hr.firstValue_iff hK rfl]
    decide
  · rw [hr'.firstValue_iff hK rfl]
    decide
  · rw [hr'.firstValue_iff hK rfl]
    decide

end Dlbase.Phash
