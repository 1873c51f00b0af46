import Dlbase.Hash.Count
import Dlbase.Hash.Release

/-!
# Allocations that fail

`dl_hash_set` allocates a new node, or a new cell for a further value, and copies of the value and
the key.  If the allocation of the node fails, the map is as before.  All the others are made when
a tag has already been set or a node has already been linked, so that they leave the map with a
node or a value that is not complete.
-/

namespace Dlbase.Hash

open Cmem

/-- Where `dl_hash_set` allocates memory. -/
inductive Site where
  /-- The `dl_str` of a value. -/
  | value
  /-- The characters of a value. -/
  | valueData
  /-- The `dl_str` of a key. -/
  | key
  /-- The characters of a key. -/
  | keyData
  /-- A node. -/
  | node
  /-- A further value. -/
  | cell
deriving DecidableEq, Repr

/-- The results of the setters if allocations may fail. -/
inductive Result where
  /-- `DL_OK`. -/
  | ok
  /-- `DL_AGAIN`. -/
  | again
  /-- `DL_ERROR`. -/
  | error
deriving DecidableEq, Repr

/-- A null pointer. -/
def null : Nat := 0

section Model

/- In a call, the allocation at the site `fail` returns `NULL`.  A new node holds `junk` until it
is filled. -/
variable (alloc : Allocator (Obj Val)) (junk : Node Val) (fail : Option Site)

/-- `fill_v`: what is left as the value, and whether it is filled.  A `dl_str` without characters
is an empty string. -/
def fillVFail (m : Mem Val) : Arg → (Mem Val × Val) × Bool
  | .int n => ((m, .int (toInt n)), true)
  | .str s =>
    if fail = some .value then ((m, .str null), false)
    else if fail = some .valueData then (((newStr alloc m []).1, .str (newStr alloc m []).2), false)
    else (((newStr alloc m s).1, .str (newStr alloc m s).2), true)
  | .void p => ((m, .void p), true)

/-- `fill_node` for the node at `a`, which holds `n`, and the fields that are set after it; whether
it is filled.  The characters of the key are copied before the pointer to them is tested. -/
def fillNodeFail (m : Mem Val) (a : Nat) (n : Node Val) (key : List UInt8) (v : Arg)
    (hKey : UInt32) (next : Option Nat) : Exec (Mem Val × Bool) := do
  let ((m, val), filled) := fillVFail alloc fail m v
  let n := { n with v := { n.v with v := some val } }
  if filled = false then do
    let m ← m.put a (.node n)
    pure (m, false)
  else if fail = some .key then do
    let m ← m.put a (.node { n with key := none })
    pure (m, false)
  else if fail = some .keyData then Exec.undef
  else do
    let (m, k) := newStr alloc m key
    let m ← m.put a (.node ⟨⟨some val, none⟩, some k, hKey, next⟩)
    pure (m, true)

/-- The part of `dl_hash_set` for a key that does not exist in a slot that is not empty. -/
def setNewFail (m : Mem Val) (a : Nat) (node : Node Val) (key : List UInt8) (v : Arg)
    (hKey : UInt32) : Exec (Mem Val × Bool) := do
  if fail = some .node then pure (m, false)
  else do
    let n := alloc.run m
    let m ← (m.set n (.node Node.zero)).put a (.node { node with next := some n })
    fillNodeFail alloc fail m n { junk with next := node.next } key v hKey node.next

/-- The part of `dl_hash_set` that chains a value to the node at `n`.  The new cell is not tested
before it is written to. -/
def chainValueFail (m : Mem Val) (n : Nat) (v : Arg) : Exec (Mem Val × Bool) := do
  if fail = some .cell then Exec.undef
  else do
    let node ← loadNode m (some n)
    let vv := alloc.run m
    let m ← (m.set vv (.value ⟨none, none⟩)).put n
      (.node { node with v := { node.v with next := some vv } })
    let ((m, val), filled) := fillVFail alloc fail m v
    let m ← m.put vv (.value ⟨some val, node.v.next⟩)
    pure (m, filled)

/-- The end of `dl_hash_set`: `h->el_sum++`, which must not overflow, if all is filled. -/
def Counted.finish (h : Counted) (m : Mem Val) (filled : Bool) : Exec (Counted × Result) :=
  if filled = false then pure (⟨{ h.table with mem := m }, h.elSum⟩, .error)
  else if h.elSum + 1 < 2 ^ 31 then pure (⟨{ h.table with mem := m }, h.elSum + 1⟩, .ok)
  else Exec.undef

/-- `dl_hash_set`. -/
def Counted.setFail (fuel : Nat) (h : Counted) (key : List UInt8) (v : Arg) :
    Exec (Counted × Result) := do
  let hKey := hashKey key
  let a := slot h.table hKey
  let node ← loadNode h.table.mem (some a)
  if node.v.v = none then do
    let (m, filled) ← fillNodeFail alloc fail h.table.mem a node key v hKey none
    h.finish m filled
  else do
    match ← search h.table.mem hKey key fuel (some a) with
    | none => do
      let (m, filled) ← setNewFail alloc junk fail h.table.mem a node key v hKey
      h.finish m filled
    | some n =>
      if h.table.list then do
        let (m, filled) ← chainValueFail alloc fail h.table.mem n v
        h.finish m filled
      else
        pure (h, .again)

/-- What a call does. -/
def Call.runFail (fuel : Nat) (h : Counted) (key : List UInt8) : Call → Exec (Counted × Result)
  | set v => h.setFail alloc junk fail fuel key v
  | rep v => do
    let h ← h.del fuel key
    h.setFail alloc junk fail fuel key v
  | del => do
    let h ← h.del fuel key
    pure (h, .ok)

end Model

/-- The result if no allocation fails. -/
def Status.result : Status → Result
  | ok => .ok
  | again => .again

/-- The values of the key after a call with this result. -/
def Call.afterFail (r : Result) (xs : List Arg) : Call → List Arg
  | set v => if r = .ok then addValue v.stored xs else xs
  | rep v => if r = .ok then [v.stored] else []
  | del => []

/-- The only allocation that may fail is that of a node. -/
def Site.Clean (fail : Option Site) : Prop := fail = none ∨ fail = some .node

/-- The maps that `dl_hash_init` and calls lead to, with the values that each key should have.  Each
call tells its key apart from the others in the table, and no allocation fails in it, or that of a
node. -/
inductive FailRun : Counted → Multimap Arg → Prop where
  /-- The map has been created. -/
  | init {m : Mem Val} (node slot : Nat) (list : Bool) : m.Finite →
      FailRun (.init m node slot list) fun _ ↦ []
  /-- There has been a call. -/
  | call {alloc : Allocator (Obj Val)} {junk : Node Val} {fail : Option Site} {h h' : Counted}
      {M : Multimap Arg} {key : List UInt8} {c : Call} {r : Result} :
      FailRun h M → Site.Clean fail → c.Apart h.table key →
      Returns (fun fuel ↦ c.runFail alloc junk fail fuel h key) (h', r) →
      FailRun h' (M.put key (c.afterFail r (M key)))

/-- A setter needs a new node: the slot of the key is not empty, and the key is not there. -/
def NeedsNode (h : Table) (M : Multimap Arg) (key : List UInt8) : Prop :=
  M key = [] ∧ ∃ k, M k ≠ [] ∧ slotIndex h.slotTotal k = slotIndex h.slotTotal key

/-- The call is one of a setter for the key. -/
def Call.Sets (c : Call) : Prop := ∃ v, c = .set v ∨ c = .rep v

/-- A map that holds the values `M`, and that survives the failure of an allocation. -/
structure FailSafe (h : Counted) (M : Multimap Arg) : Prop where
  /-- Each key with values has one node with just these. -/
  refines : Refines Decodes h.table.mem h.table.node h.table.slotTotal M
  /-- If there is no memory for a new node, a setter fails and the map is as before. -/
  fails : ∀ alloc junk (c : Call) key, c.Sets → c.Apart h.table key → NeedsNode h.table M key →
    Returns (fun fuel ↦ c.runFail alloc junk (some .node) fuel h key) (h, .error)
  /-- Keys are found. -/
  finds : ∀ key, Told h.table.mem h.table.node h.table.slotTotal key → Finds h.table M key
  /-- Calls return. -/
  returns : ∀ alloc junk fail (c : Call) key, Site.Clean fail → c.Apart h.table key →
    h.elSum + 1 < 2 ^ 31 → ∃ x, Returns (fun fuel ↦ c.runFail alloc junk fail fuel h key) x
  /-- The map can be destroyed. -/
  destroys : ∃ m log, Returns (fun fuel ↦ (Handled.destroy fuel h.table).run) (m, log)

variable {alloc : Allocator (Obj Val)} {junk : Node Val} {fail : Option Site} {h h' : Counted}
  {M : Multimap Arg} {S : List HashSlot} {m : Mem Val} {a : Nat} {key : List UInt8} {v : Arg}
  {c : Call}

/-! ## Without a failure -/

theorem fillVFail_eq (hv : fail ≠ some .value) (hd : fail ≠ some .valueData) (m : Mem Val)
    (v : Arg) : fillVFail alloc fail m v = (fillV alloc m v, true) := by
  cases v with
  | int n => rfl
  | str s => rw [fillVFail, if_neg hv, if_neg hd]; rfl
  | void p => rfl

theorem Site.Clean.ne {s : Site} (hfail : Site.Clean fail) (hs : s ≠ .node) : fail ≠ some s := by
  rintro rfl
  rcases hfail with h | h
  · cases h
  · exact hs (Option.some.inj h)

theorem fillNodeFail_eq (hfail : Site.Clean fail) (m : Mem Val) (a : Nat) (n : Node Val)
    (key : List UInt8) (v : Arg) (hKey : UInt32) (next : Option Nat) :
    fillNodeFail alloc fail m a n key v hKey next = (do
      let m ← fillNode alloc m a key v hKey next
      pure (m, true)) := by
  rw [fillNodeFail, fillVFail_eq (hfail.ne (s := .value) nofun) (hfail.ne (s := .valueData) nofun)]
  simp only [Bool.true_eq_false, if_false, if_neg (hfail.ne (s := .key) nofun),
    if_neg (hfail.ne (s := .keyData) nofun)]
  rfl

theorem chainValueFail_eq (hfail : Site.Clean fail) (m : Mem Val) (n : Nat) (v : Arg) :
    chainValueFail alloc fail m n v = (do
      let m ← chainValue alloc m n v
      pure (m, true)) := by
  rw [chainValueFail, if_neg (hfail.ne (s := .cell) nofun), chainValue]
  simp only [fillVFail_eq (hfail.ne (s := .value) nofun) (hfail.ne (s := .valueData) nofun),
    bind_assoc]

theorem setNewFail_eq (m : Mem Val) (a : Nat) (node : Node Val) (key : List UInt8) (v : Arg)
    (hKey : UInt32) : setNewFail alloc junk none m a node key v hKey = (do
      let m ← setNew alloc m a node key v hKey
      pure (m, true)) := by
  rw [setNewFail, if_neg nofun, setNew]
  simp only [fillNodeFail_eq (.inl rfl), bind_assoc]

/-- The setter without a failure. -/
def Counted.setResult (alloc : Allocator (Obj Val)) (fuel : Nat) (h : Counted) (key : List UInt8)
    (v : Arg) : Exec (Counted × Result) := do
  let (h, st) ← h.set alloc fuel key v
  pure (h, st.result)

/-- At the end of a setter that has not failed, the value is counted. -/
theorem finish_true (m : Mem Val) : h.finish m true = if h.elSum + 1 < 2 ^ 31 then
    pure (⟨{ h.table with mem := m }, h.elSum + 1⟩, .ok) else Exec.undef :=
  if_neg nofun

section Branches

variable {node : Node Val} {fuel : Nat}
  (hload : loadNode h.table.mem (some (slot h.table (hashKey key))) = .ok node)

include hload

theorem setFail_empty (hfail : Site.Clean fail) (hv : node.v.v = none) :
    h.setFail alloc junk fail fuel key v = h.setResult alloc fuel key v := by
  unfold Counted.setFail Counted.setResult Counted.set Hash.set
  simp only [hload, Exec.ok_bind, if_pos hv, fillNodeFail_eq hfail, bind_assoc, pure_bind,
    finish_true]
  split_ifs <;> rfl

theorem setFail_found (hfail : Site.Clean fail) (hv : node.v.v ≠ none) {n : Nat}
    (hs : search h.table.mem (hashKey key) key fuel (some (slot h.table (hashKey key))) =
      .ok (some n)) :
    h.setFail alloc junk fail fuel key v = h.setResult alloc fuel key v := by
  unfold Counted.setFail Counted.setResult Counted.set Hash.set
  simp only [hload, Exec.ok_bind, if_neg hv, hs, chainValueFail_eq hfail]
  by_cases hlist : h.table.list = true
  · simp only [if_pos hlist, bind_assoc, pure_bind, finish_true]
    split_ifs <;> rfl
  · simp only [if_neg hlist]
    rfl

theorem setFail_absent (hv : node.v.v ≠ none)
    (hs : search h.table.mem (hashKey key) key fuel (some (slot h.table (hashKey key))) =
      .ok none) :
    h.setFail alloc junk none fuel key v = h.setResult alloc fuel key v := by
  unfold Counted.setFail Counted.setResult Counted.set Hash.set
  simp only [hload, Exec.ok_bind, if_neg hv, hs, setNewFail_eq, bind_assoc, pure_bind, finish_true]
  split_ifs <;> rfl

/-- If there is no memory for a new node, the map is as before. -/
theorem setFail_node (hv : node.v.v ≠ none)
    (hs : search h.table.mem (hashKey key) key fuel (some (slot h.table (hashKey key))) =
      .ok none) :
    h.setFail alloc junk (some .node) fuel key v = .ok (h, .error) := by
  unfold Counted.setFail setNewFail
  simp only [hload, Exec.ok_bind, if_neg hv, hs, if_true]
  rfl

end Branches

/-! ## The table -/

/-- The run returns, unless the number of elements overflows. -/
def Settles {α : Type} (h : Counted) (run : Nat → Exec α) (x : α) : Prop :=
  Returns run x ∨ ¬ h.elSum + 1 < 2 ^ 31 ∧ ∃ N, ∀ fuel, N ≤ fuel → run fuel = Exec.undef

theorem Settles.congr {α : Type} {run run' : Nat → Exec α} {x : α} (hs : Settles h run x)
    (heq : ∃ N, ∀ fuel, N ≤ fuel → run' fuel = run fuel) : Settles h run' x := by
  obtain ⟨N, hN⟩ := heq
  rcases hs with ⟨B, hB⟩ | ⟨hlt, B, hB⟩
  · exact .inl ⟨max N B, fun fuel hf ↦ (hN fuel (le_of_max_le_left hf)).trans
      (hB fuel (le_of_max_le_right hf))⟩
  · exact .inr ⟨hlt, max N B, fun fuel hf ↦ (hN fuel (le_of_max_le_left hf)).trans
      (hB fuel (le_of_max_le_right hf))⟩

/-- What the run returns is what it settles on. -/
theorem Settles.unique {α : Type} {run : Nat → Exec α} {x y : α} (hs : Settles h run x)
    (hret : Returns run y) : y = x := by
  rcases hs with hret' | ⟨-, N, hN⟩
  · exact hret.unique hret'
  · obtain ⟨B, hB⟩ := hret
    have heq := hB (max N B) (Nat.le_max_right N B)
    rw [hN _ (Nat.le_max_left N B)] at heq
    cases heq

theorem Multimap.put_self (M : Multimap Arg) (key : List UInt8) : M.put key (M key) = M := by
  funext k
  rw [Multimap.put]
  split_ifs with hk
  · rw [hk]
  · rfl

theorem Multimap.put_put (M : Multimap Arg) (key : List UInt8) (xs ys : List Arg) :
    (M.put key xs).put key ys = M.put key ys := by
  funext k
  rw [Multimap.put, Multimap.put, Multimap.put]
  split_ifs
  · rfl
  · rfl

/-- A slot is not empty if it is that of a key with values. -/
theorem Inv.items_ne_nil_iff {t : Table} {s : HashSlot} (hi : Inv t S M)
    (hs : S[slotIndex S.length key]? = some s) : s.items ≠ [] ↔
      ∃ k, M k ≠ [] ∧ slotIndex t.slotTotal k = slotIndex t.slotTotal key := by
  constructor
  · intro hne
    obtain ⟨i, L, hitems⟩ := List.exists_cons_of_ne_nil hne
    have hmem : i ∈ s.items := hitems ▸ List.mem_cons_self
    have hidx := hi.rep.index _ _ hs i hmem
    have hkey : i.key ∈ slotKeys S i.key := by
      rw [slotKeys, hidx, hs]
      exact List.mem_map_of_mem hmem
    exact ⟨i.key, hi.values_ne_nil hkey, hi.length ▸ hidx⟩
  · rintro ⟨k, hk, hidx⟩ hnil
    rw [← hi.length] at hidx
    rw [← hi.values, tableValues, hidx, hs] at hk
    dsimp only at hk
    rw [hnil] at hk
    exact hk rfl

/-- A setter without a failure returns, unless the counter overflows. -/
theorem Inv.setResult (hi : Inv h.table S M) (hc : Clear key (slotKeys S key))
    (alloc : Allocator (Obj Val)) (v : Arg) :
    ∃ h' S' r, Inv h'.table S' (M.put key ((Call.set v).afterFail r (M key))) ∧
      Settles h (fun fuel ↦ h.setResult alloc fuel key v) (h', r) := by
  obtain ⟨t, S', log, ⟨N, hN⟩, hi', -⟩ := hi.set_handled alloc hc v
  have hset : ∀ fuel, N ≤ fuel → Hash.set alloc fuel h.table key v =
      .ok (t, (Call.set v.stored).status h.table.list (M key)) := fun fuel hf ↦
    (Handled.erases_set ..).eq_ok (hN fuel hf)
  unfold Counted.setResult Counted.set
  by_cases hle : M key = [] ∨ h.table.list = true
  · simp only [Call.status, Call.after, if_pos hle] at hset hi'
    refine ⟨⟨t, h.elSum + 1⟩, S', .ok, hi', ?_⟩
    by_cases hlt : h.elSum + 1 < 2 ^ 31
    · refine .inl ⟨N, fun fuel hf ↦ ?_⟩
      simp only [hset fuel hf, Exec.ok_bind, if_pos hlt]
      rfl
    · refine .inr ⟨hlt, N, fun fuel hf ↦ ?_⟩
      simp only [hset fuel hf, Exec.ok_bind, if_neg hlt]
      rfl
  · simp only [Call.status, Call.after, if_neg hle] at hset hi'
    refine ⟨⟨t, h.elSum⟩, S', .again, hi', .inl ⟨N, fun fuel hf ↦ ?_⟩⟩
    simp only [hset fuel hf, Exec.ok_bind]
    rfl

/-- A setter for which there is no memory for a new node fails; otherwise nothing has failed. -/
theorem Inv.setFail (hi : Inv h.table S M) (hc : Clear key (slotKeys S key))
    (alloc : Allocator (Obj Val)) (junk : Node Val) (hfail : Site.Clean fail) (v : Arg) :
    (fail = some .node ∧ NeedsNode h.table M key ∧
      Returns (fun fuel ↦ h.setFail alloc junk fail fuel key v) (h, .error)) ∨
    (¬ (fail = some .node ∧ NeedsNode h.table M key) ∧
      ∃ N, ∀ fuel, N ≤ fuel →
        h.setFail alloc junk fail fuel key v = h.setResult alloc fuel key v) := by
  obtain ⟨s, H, hs, hok, hm, hnodup, hval, -⟩ := hi.rep.focus Stored.arg key
  have hc' := hc
  rw [slotKeys, hs] at hc'
  have hload := hok.loadNode_eq hm
  rw [← hi.slot_eq] at hload
  have hslot := hi.items_ne_nil_iff hs
  by_cases hnil : s.items = []
  · have hneeds : ¬ (fail = some .node ∧ NeedsNode h.table M key) :=
      fun hn ↦ hslot.mpr hn.2.2 hnil
    exact .inr ⟨hneeds, 0, fun fuel _ ↦
      setFail_empty hload hfail (hok.head_eq_none.mpr hnil)⟩
  · have hv : (s.head Stored.val).v.v ≠ none := mt hok.head_eq_none.mp hnil
    have hsearch := fun fuel (hf : s.items.length < fuel) ↦ hok.search_eq hnil hm hc' hf
    rw [← hi.slot_eq] at hsearch
    have hmem : s.items.find? (·.key = key) = none ↔ M key = [] := by
      have hfind : s.items.find? (·.key = key) = none ↔
          key ∉ (entries Stored.arg s.items).map Prod.fst := find?_eq_none_iff
      rw [hfind, ← hi.values, hval, ← not_iff_not, not_not]
      exact (Hash.values_ne_nil entries_ne_nil).symm
    cases hfind : s.items.find? (·.key = key) with
    | none =>
      rw [hfind] at hsearch
      have hneeds : NeedsNode h.table M key := ⟨hmem.mp hfind, hslot.mp hnil⟩
      rcases hfail with rfl | rfl
      · exact .inr ⟨(by rintro ⟨⟨⟩, _⟩), s.items.length + 1, fun fuel hf ↦
          setFail_absent hload hv (hsearch fuel hf)⟩
      · exact .inl ⟨rfl, hneeds, s.items.length + 1, fun fuel hf ↦
          setFail_node hload hv (hsearch fuel hf)⟩
    | some j =>
      rw [hfind] at hsearch
      have hneeds : ¬ (fail = some .node ∧ NeedsNode h.table M key) := fun hn ↦ by
        rw [hmem.mpr hn.2.1] at hfind
        cases hfind
      exact .inr ⟨hneeds, s.items.length + 1, fun fuel hf ↦
        setFail_found hload hfail hv (hsearch fuel hf)⟩

/-- A setter returns, unless the counter overflows. -/
theorem Inv.setFail_settles (hi : Inv h.table S M) (hc : Clear key (slotKeys S key))
    (alloc : Allocator (Obj Val)) (junk : Node Val) (hfail : Site.Clean fail) (v : Arg) :
    ∃ h' S' r, Inv h'.table S' (M.put key ((Call.set v).afterFail r (M key))) ∧
      Settles h (fun fuel ↦ h.setFail alloc junk fail fuel key v) (h', r) := by
  rcases hi.setFail hc alloc junk hfail v with ⟨-, -, hret⟩ | ⟨-, heq⟩
  · refine ⟨h, S, .error, ?_, .inl hret⟩
    rwa [Call.afterFail, if_neg nofun, Multimap.put_self]
  · obtain ⟨h', S', r, hi', hs⟩ := hi.setResult hc alloc v
    exact ⟨h', S', r, hi', hs.congr heq⟩

/-- A call returns, unless the counter overflows. -/
theorem Inv.callFail_settles (hi : Inv h.table S M) (hc : c.ApartFrom key (slotKeys S key))
    (alloc : Allocator (Obj Val)) (junk : Node Val) (hfail : Site.Clean fail) :
    ∃ h' S' r, Inv h'.table S' (M.put key (c.afterFail r (M key))) ∧
      Settles h (fun fuel ↦ c.runFail alloc junk fail fuel h key) (h', r) := by
  have hdel : ∀ {t : Table}, Returns (fun fuel ↦ Hash.del fuel h.table key) t →
      Returns (fun fuel ↦ h.del fuel key) ⟨t, h.elSum⟩ := fun hret ↦
    hret.bind ⟨0, fun _ _ ↦ rfl⟩
  cases c with
  | set v => exact hi.setFail_settles hc alloc junk hfail v
  | rep v =>
    obtain ⟨t, S₁, hret, hi₁, hsub, -⟩ := hi.del (clear_of_forall hc)
    have hi₁' : Inv (⟨t, h.elSum⟩ : Counted).table S₁ (M.put key []) := hi₁
    obtain ⟨h', S', r, hi', hs⟩ := hi₁'.setFail_settles
      (clear_of_forall fun s hs ↦ hc s (hsub.subset hs)) alloc junk hfail v
    refine ⟨h', S', r, ?_, ?_⟩
    · rw [Multimap.put_put, Multimap.put, if_pos rfl] at hi'
      exact hi'
    · rcases hs with hret' | ⟨hlt, N, hN⟩
      · exact .inl ((hdel hret).bind hret')
      · obtain ⟨B, hB⟩ := hdel hret
        refine .inr ⟨hlt, max N B, fun fuel hf ↦ ?_⟩
        have hdel' : h.del fuel key = .ok ⟨t, h.elSum⟩ := hB fuel (le_of_max_le_right hf)
        simp only [Call.runFail, hdel', Exec.ok_bind]
        exact hN fuel (le_of_max_le_left hf)
  | del =>
    obtain ⟨t, S', hret, hi', -⟩ := hi.del hc
    exact ⟨⟨t, h.elSum⟩, S', .ok, hi', .inl ((hdel hret).bind ⟨0, fun _ _ ↦ rfl⟩)⟩

/-- A setter fails if there is no memory for the node that it needs. -/
theorem Inv.callFail_error (hi : Inv h.table S M) (hc : c.ApartFrom key (slotKeys S key))
    (alloc : Allocator (Obj Val)) (junk : Node Val) (hsets : c.Sets)
    (hneeds : NeedsNode h.table M key) :
    Returns (fun fuel ↦ c.runFail alloc junk (some .node) fuel h key) (h, .error) := by
  have hclear : Clear key (slotKeys S key) := by
    obtain ⟨v, rfl | rfl⟩ := hsets
    · exact hc
    · exact clear_of_forall hc
  have hset : ∀ v, Returns (fun fuel ↦ h.setFail alloc junk (some .node) fuel key v)
      (h, .error) := fun v ↦ by
    rcases hi.setFail hclear alloc junk (.inr rfl) v with ⟨-, -, hret⟩ | ⟨hneg, -⟩
    · exact hret
    · exact absurd ⟨rfl, hneeds⟩ hneg
  obtain ⟨v, rfl | rfl⟩ := hsets
  · exact hset v
  · -- there is nothing to delete
    obtain ⟨o, ⟨N, hN⟩, hnone, -⟩ := hi.find hclear
    rw [hnone.mpr hneeds.1] at hN
    have hdel : Returns (fun fuel ↦ h.del fuel key) h := ⟨N, fun fuel hf ↦ by
      simp only [Counted.del, del_eq_of_find (hN fuel hf)]
      rfl⟩
    exact hdel.bind (hset v)

/-! ## Runs -/

/-- Every map that is reached holds the values that it should. -/
theorem FailRun.inv (hrun : FailRun h M) : ∃ S, Inv h.table S M := by
  induction hrun with
  | init node slot list hm =>
    obtain ⟨S, hi, -⟩ := inv_init node slot list hm
    exact ⟨S, hi⟩
  | @call alloc junk fail h h' M key c r hrun hfail hapart hret ih =>
    obtain ⟨S, hi⟩ := ih
    obtain ⟨h₁, S', r', hi', hs⟩ :=
      hi.callFail_settles (hi.of_slotKeys Call.apartFrom_nil hapart) alloc junk hfail
    obtain ⟨rfl, rfl⟩ := Prod.mk.inj (hs.unique hret)
    exact ⟨S', hi'⟩

/-- As long as the only allocation that fails is that of a node, a setter that fails leaves the map
as it was, and what follows is well defined. -/
theorem failed_set_atomic (hrun : FailRun h M) : FailSafe h M := by
  obtain ⟨S, hi⟩ := hrun.inv
  obtain ⟨m, log, hdestroy, -⟩ := hi.destroy
  refine ⟨hi.refines, fun alloc junk c key hsets hapart hneeds ↦ ?_,
    fun key ht ↦ hi.find (hi.of_slotKeys trivial ht), fun alloc junk fail c key hfail hapart hlt ↦ ?_,
    m, log, hdestroy⟩
  · exact hi.callFail_error (hi.of_slotKeys Call.apartFrom_nil hapart) alloc junk hsets hneeds
  · obtain ⟨h', S', r, -, hs⟩ :=
      hi.callFail_settles (hi.of_slotKeys Call.apartFrom_nil hapart) alloc junk hfail
    rcases hs with hret | ⟨hlt', -⟩
    · exact ⟨_, hret⟩
    · exact absurd hlt hlt'

/-- There is no memory for a second node in a slot. -/
theorem failed_set_atomic_two : ∃ h M, FailRun h M ∧ FailSafe h M ∧ M [97] = [.int 5] ∧
    Returns (fun fuel ↦ (Call.set (.int 7)).runFail (.least _) Node.zero (some .node) fuel h [98])
      (h, .error) := by
  have hinit : FailRun (.init (fun _ ↦ none) 1 1 false) fun _ ↦ [] :=
    .init _ _ _ ⟨0, fun _ _ ↦ rfl⟩
  have hapart : ∀ {h M}, FailRun h M → (∀ k, M k ≠ [] → k = [97]) →
      ∀ (c : Call) key, key.length = 1 → c.Apart h.table key := fun {h M} hrun hM c key hlen ↦ by
    obtain ⟨S, hi⟩ := hrun.inv
    have hsep : ∀ s ∈ ({[97]} : Set (List UInt8)), Separate s key := by
      rintro s rfl - (hpre | hpre)
      · exact hpre.eq_of_length hlen.symm
      · exact (hpre.eq_of_length hlen).symm
    rw [Call.Apart, ← hi.length]
    exact hi.rep.to_slotKeys (hi.apartFrom hM hsep)
  have hset := hapart hinit (fun k hk ↦ absurd rfl hk) (.set (.int 5)) [97] rfl
  obtain ⟨h, hret⟩ : ∃ h, Returns (fun fuel ↦ (Call.set (.int 5)).runFail (.prefer _ 2) Node.zero none
      fuel (.init (fun _ ↦ none) 1 1 false) [97]) (h, .ok) := ⟨_, 0, fun fuel _ ↦ rfl⟩
  have hrun := hinit.call (.inl rfl) hset hret
  have hone : ∀ k, Multimap.put (fun _ ↦ []) [97]
      ((Call.set (.int 5)).afterFail .ok ([] : List Arg)) k ≠ [] → k = [97] := fun k hk ↦ by
    by_contra hne
    exact hk (if_neg hne)
  refine ⟨h, _, hrun, failed_set_atomic hrun, rfl, (failed_set_atomic hrun).fails _ _ _ _
    ⟨_, .inl rfl⟩ (hapart hrun hone _ _ rfl) ⟨rfl, [97], List.cons_ne_nil _ _, ?_⟩⟩
  obtain ⟨N, hN⟩ := hret
  obtain ⟨rfl, -⟩ := Prod.mk.inj (Except.ok.inj (hN N (Nat.le_refl N)))
  rfl

/-- If there is no memory for the key of a first node, the map cannot be destroyed. -/
theorem not_failed_set_atomic : ∃ h h' : Counted, FailRun h (fun _ ↦ []) ∧
    (∀ fuel, (Call.set (.int 1)).runFail (.least _) Node.zero (some .key) fuel h [97] =
      .ok (h', .error)) ∧
    ∀ x, ¬ Returns (fun fuel ↦ (Handled.destroy fuel h'.table).run) x := by
  refine ⟨.init (fun _ ↦ none) 1 1 false, _, .init _ _ _ ⟨0, fun _ _ ↦ rfl⟩, fun fuel ↦ rfl,
    fun x hret ↦ ?_⟩
  obtain ⟨fuel, hfuel⟩ := hret.exists_fuel
  cases fuel with
  | zero => cases hfuel
  | succ fuel => cases hfuel

end Dlbase.Hash
