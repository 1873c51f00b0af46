import Dlbase.Hash.Nodes
import Dlbase.Table.Log2

/-!
# The table of `dl_table.c`

A table has an array part for small indices and a node part, in which the nodes with the same main
position form a chain.  If no free node is left, the sizes of both parts are computed anew and the
values are inserted again, which can lead to the same thing once more.

Loops over chains get their number of rounds as `fuel`, and nested calls of `dl_rehash` get their
depth.  A `dl_str` and its characters are one object, which lacks the characters if their
allocation has failed.  The array and the nodes belong to the table alone; the array has a number
by which it can be told whether it is still the same one.
-/

namespace Dlbase.Table

open Cmem

/-- The tags of keys and values; `null` is the tag `0` of `_dummynode`. -/
inductive Tag where
  /-- `0`. -/
  | null
  /-- `DL_NIL_L`. -/
  | nil
  /-- `DL_INT_L`. -/
  | int
  /-- `DL_STR_L`. -/
  | str
  /-- `DL_VOID_L`. -/
  | void
deriving DecidableEq, Repr

/-- A `dl_value_l`. -/
structure Value where
  /-- The union: a number, or the address that a pointer holds, as a number. -/
  v : Int
  /-- The tag. -/
  tt : Tag
deriving DecidableEq, Repr

/-- A `dl_key_l` without the link. -/
inductive Key where
  /-- The tag is `0`. -/
  | null
  /-- The tag is `DL_NIL_L`. -/
  | nil
  /-- An integer. -/
  | int (n : Int)
  /-- The address of a string. -/
  | str (s : Nat)
deriving DecidableEq, Repr

/-- A `dl_node_l`. -/
structure Node where
  /-- The value. -/
  val : Value
  /-- The key. -/
  key : Key
  /-- The index of the next node of the chain. -/
  next : Option Nat
deriving DecidableEq, Repr

/-- What `t->node` points to. -/
inductive NodePart where
  /-- Nothing. -/
  | null
  /-- `_dummynode`. -/
  | dummy
  /-- An array of nodes. -/
  | nodes (m : Objects Node)

/-- The memory of the strings. -/
abbrev Mem := Objects (Option (List UInt8))

/-- A `dl_table`. -/
structure DlTable where
  /-- The memory. -/
  mem : Mem
  /-- The number of calls of `dl_alloc`. -/
  allocs : Nat
  /-- What `void_h` has been called with, the last pointer first. -/
  voids : List Int
  /-- The logarithm of the number of nodes. -/
  lsizenode : Nat
  /-- The number of values in the array. -/
  sizearray : Int
  /-- The array. -/
  array : Option (List Value)
  /-- The number of the array. -/
  arrayId : Nat
  /-- The nodes. -/
  node : NodePart
  /-- The index of `t->lastfree`. -/
  lastfree : Option Int

/-- A pointer to a value of the table. -/
inductive Loc where
  /-- In the array. -/
  | array (i : Nat)
  /-- In a node. -/
  | node (i : Nat)
deriving DecidableEq, Repr

/-- `dl_alloc`, which returns `NULL` when it is called for the `n`th time if `fails n`. -/
structure Malloc extends Allocator (Option (List UInt8)) where
  /-- Whether the call fails. -/
  fails : Nat → Bool
  /-- The address is not `NULL`. -/
  run_pos : ∀ m, 0 < run m

/-- The results of the setters. -/
inductive Status where
  /-- `DL_OK`. -/
  | ok
  /-- `DL_ERROR`. -/
  | error
deriving DecidableEq, Repr

/-- `MAXBITS`. -/
def maxBits : Nat := 26

/-- `_dummynode`. -/
def dummynode : Node := ⟨⟨0, .null⟩, .null, none⟩

/-! ## Memory -/

/-- The size of the node part, `1 << t->lsizenode`. -/
def DlTable.sizenode (t : DlTable) : Nat := 2 ^ t.lsizenode

/-- Whether `t->node == dummynode`. -/
def NodePart.isDummy : NodePart → Bool
  | dummy => true
  | _ => false

/-- `node[i]`. -/
def NodePart.load : NodePart → Nat → Exec Node
  | null, _ => Exec.undef
  | dummy, i => if i = 0 then .ok dummynode else Exec.undef
  | nodes m, i => m.get i

/-- `t->node[i]`. -/
def loadNode (t : DlTable) (i : Nat) : Exec Node := t.node.load i

/-- `t->node[i] = n`. -/
def storeNode (t : DlTable) (i : Nat) (n : Node) : Exec DlTable :=
  match t.node with
  | .nodes m => do
    let m ← m.put i n
    pure { t with node := .nodes m }
  | _ => Exec.undef

/-- `t->array[i]`. -/
def loadArray (t : DlTable) (i : Nat) : Exec Value :=
  match t.array with
  | some vs =>
    match vs[i]? with
    | some v => .ok v
    | none => Exec.undef
  | none => Exec.undef

/-- Reading through a pointer to a value. -/
def readVal (t : DlTable) : Loc → Exec Value
  | .array i => loadArray t i
  | .node i => do
    let n ← loadNode t i
    pure n.val

/-- Writing through a pointer to a value. -/
def writeVal (t : DlTable) (l : Loc) (v : Value) : Exec DlTable :=
  match l with
  | .array i =>
    match t.array with
    | some vs => if i < vs.length then .ok { t with array := some (vs.set i v) } else Exec.undef
    | none => Exec.undef
  | .node i => do
    let n ← loadNode t i
    storeNode t i { n with val := v }

/-- Reading a string. -/
def loadStr (m : Mem) (p : Nat) : Exec (List UInt8) := do
  match ← m.get p with
  | some s => .ok s
  | none => Exec.undef

/-- A call of `dl_alloc` of which only the success matters. -/
def DlTable.alloc (A : Malloc) (t : DlTable) : DlTable × Bool :=
  ({ t with allocs := t.allocs + 1 }, !A.fails t.allocs)

/-- A value that is about to be overwritten is freed, or the user's function is called for it. -/
def release (t : DlTable) (v : Value) : Exec DlTable :=
  match v.tt with
  | .str => do
    let m ← t.mem.free v.v.toNat
    pure { t with mem := m }
  | .void => .ok { t with voids := v.v :: t.voids }
  | _ => .ok t

/-! ## Finding -/

/-- `hashnum`. -/
def hashnum (t : DlTable) (n : Int) : Nat :=
  if n = 0 then 0
  else ((n % 2 ^ 32 + n / 2 ^ 32 % 2 ^ 32) % 2 ^ 32).toNat % t.sizenode

/-- The position in the node part that the hash of a string leads to. -/
def hashstr (t : DlTable) (s : List UInt8) : Nat := (Hash.hashKey s).toNat % t.sizenode

/-- `main_pos`. -/
def mainPos (t : DlTable) : Key → Exec Nat
  | .int n => .ok (hashnum t n)
  | .str p => do
    let s ← loadStr t.mem p
    pure (hashstr t s)
  | _ => Exec.undef

/-- The test in the loop of `dl_find_by_index`. -/
def sameIndex (index : Int) (n : Node) : Exec Bool := .ok (decide (n.key = .int index))

/-- The test in the loop of `dl_find_by_str`. -/
def sameStr (t : DlTable) (str : List UInt8) (n : Node) : Exec Bool :=
  match n.key with
  | .str p => do
    let s ← loadStr t.mem p
    Hash.memcmpEq s str
  | _ => .ok false

/-- The loops that look for a key in a chain. -/
def search (t : DlTable) (same : Node → Exec Bool) : Nat → Nat → Exec (Option Loc)
  | 0, _ => Exec.timeout
  | fuel + 1, i => do
    let n ← loadNode t i
    if ← same n then pure (some (.node i))
    else
      match n.next with
      | none => pure none
      | some j => search t same fuel j

/-- `dl_find_by_index`. -/
def findByIndex (fuel : Nat) (t : DlTable) (index : Int) : Exec (Option Loc) :=
  if index < t.sizearray ∧ 0 ≤ index then .ok (some (.array index.toNat))
  else search t (sameIndex index) fuel (hashnum t index)

/-- `dl_find_by_str`. -/
def findByStr (fuel : Nat) (t : DlTable) (str : List UInt8) : Exec (Option Loc) :=
  search t (sameStr t str) fuel (hashstr t str)

/-- `dl_find_l`. -/
def findL (fuel : Nat) (t : DlTable) : Key → Exec (Option Loc)
  | .int n => findByIndex fuel t n
  | .str p => do
    let s ← loadStr t.mem p
    findByStr fuel t s
  | _ => .ok none

/-! ## Deleting -/

/-- The loops that look for the node before the one at `n`. -/
def findPrev (t : DlTable) (n : Nat) : Nat → Nat → Exec Nat
  | 0, _ => Exec.timeout
  | fuel + 1, mp => do
    let m ← loadNode t mp
    if m.next = some n then pure mp
    else
      match m.next with
      | none => Exec.undef
      | some j => findPrev t n fuel j

/-- `dl_reset_v_l`. -/
def resetV (t : DlTable) (l : Loc) : Exec DlTable := do
  let v ← readVal t l
  let t ← release t v
  writeVal t l { v with tt := .nil }

/-- The part of `dl_reset_node_l` in which the node is taken out of its chain: the index of the
node that is to be reset. -/
def unlink (fuel : Nat) (t : DlTable) (n : Nat) : Exec (DlTable × Nat) := do
  let node ← loadNode t n
  let mp ← mainPos t node.key
  if mp ≠ n then do
    let prev ← findPrev t n fuel mp
    let p ← loadNode t prev
    let t ← storeNode t prev { p with next := node.next }
    pure (t, n)
  else
    match node.next with
    | none => pure (t, n)
    | some mp => do
      let m ← loadNode t mp
      let t ← storeNode t n m
      let t ← storeNode t mp node
      pure (t, mp)

/-- The memory of a key is freed. -/
def freeKey (t : DlTable) : Key → Exec DlTable
  | .str p => do
    let m ← t.mem.free p
    pure { t with mem := m }
  | _ => .ok t

/-- `lastfree` after the node at `n` has become free. -/
def lowerFree (n : Nat) : Option Int → Option Int
  | none => some (n + 1)
  | some k => if k ≤ n then some (n + 1) else some k

/-- `dl_reset_node_l`. -/
def resetNode (fuel : Nat) (t : DlTable) (n : Nat) : Exec DlTable := do
  let (t, n) ← unlink fuel t n
  let t ← resetV t (.node n)
  let node ← loadNode t n
  let t ← freeKey t node.key
  let t ← storeNode t n { node with key := .nil, next := none }
  pure { t with lastfree := lowerFree n t.lastfree }

/-- `dl_del_key_str_l`. -/
def delKeyStr (fuel : Nat) (t : DlTable) (str : List UInt8) : Exec DlTable := do
  match ← findByStr fuel t str with
  | some (.node n) => resetNode fuel t n
  | some (.array _) => Exec.undef
  | none => pure t

/-- `dl_del_key_index_l`. -/
def delKeyIndex (fuel : Nat) (t : DlTable) (index : Int) : Exec DlTable := do
  match ← findByIndex fuel t index with
  | some (.array i) => resetV t (.array i)
  | some (.node n) => resetNode fuel t n
  | none => pure t

/-! ## Counting -/

/-- `computesizes`, with the entries of `nums` that have not been read yet: the number of elements
that go to the array part, and its size. -/
def computesizes (narray : Nat) : List Nat → Nat → Nat → Nat → Nat → Exec (Nat × Nat)
  | [], twotoi, _, na, n => if twotoi / 2 < narray then Exec.undef else .ok (na, n)
  | c :: nums, twotoi, a, na, n =>
    if twotoi / 2 < narray then
      let a' := if 0 < c then a + c else a
      let na' := if 0 < c ∧ twotoi / 2 < a' then a' else na
      let n' := if 0 < c ∧ twotoi / 2 < a' then twotoi else n
      if a' = narray then .ok (na', n') else computesizes narray nums (twotoi * 2) a' na' n'
    else .ok (na, n)

/-- The inner loop of `numusearray`, with the number of rounds to go. -/
def countSlice (t : DlTable) : Nat → Nat → Exec Nat
  | 0, _ => .ok 0
  | k + 1, i => do
    let v ← loadArray t (i - 1)
    let lc ← countSlice t k (i + 1)
    pure (if v.tt = .nil then lc else lc + 1)

/-- The loop of `numusearray`, with the number of slices to go: the number of values, and `nums`. -/
def numusearrayLoop (t : DlTable) : Nat → Nat → Nat → Nat → List Nat → Exec (Nat × List Nat)
  | 0, _, _, ause, nums => .ok (ause, nums)
  | k + 1, lg, i, ause, nums =>
    let lim : Int := if t.sizearray < 2 ^ lg then t.sizearray else 2 ^ lg
    if t.sizearray < 2 ^ lg ∧ lim < i then .ok (ause, nums)
    else do
      let rounds := (lim + 1 - i).toNat
      let lc ← countSlice t rounds i
      numusearrayLoop t k (lg + 1) (i + rounds) (ause + lc) (nums.modify lg (· + lc))

/-- `numusearray`. -/
def numusearray (t : DlTable) (nums : List Nat) : Exec (Nat × List Nat) :=
  numusearrayLoop t (maxBits + 1) 0 1 0 nums

/-- `countint`. -/
def countint (key : Key) (nums : List Nat) : Nat × List Nat :=
  match key with
  | .int k =>
    if 0 < k ∧ k ≤ 2 ^ maxBits then (1, nums.modify (ceillog2 64 k.toNat).toNat (· + 1))
    else (0, nums)
  | _ => (0, nums)

/-- The loop of `numusehash`: the number of nodes in use, the number of integer keys among them
that are counted, and `nums`. -/
def numusehashLoop (t : DlTable) : Nat → Nat → Nat → List Nat → Exec (Nat × Nat × List Nat)
  | 0, totaluse, ause, nums => .ok (totaluse, ause, nums)
  | i + 1, totaluse, ause, nums => do
    let n ← loadNode t i
    if n.val.tt = .nil then numusehashLoop t i totaluse ause nums
    else numusehashLoop t i (totaluse + 1) (ause + (countint n.key nums).1) (countint n.key nums).2

/-- `numusehash`. -/
def numusehash (t : DlTable) (nums : List Nat) : Exec (Nat × Nat × List Nat) :=
  numusehashLoop t t.sizenode 0 0 nums

/-- What `dl_rehash` counts and computes: the new size of the array part, and that of the node
part. -/
def newSizes (t : DlTable) (ek : Key) : Exec (Int × Int) := do
  let (used, nums) ← numusearray t (List.replicate (maxBits + 1) 0)
  let (inHash, ause, nums) ← numusehash t nums
  let (extra, nums) := countint ek nums
  let (na, nasize) ← computesizes (used + ause + extra) nums 1 0 0 0
  pure ((nasize : Int), ((used + inHash + 1 : Nat) : Int) - na)

/-! ## Setting -/

section

variable (A : Malloc)

/-- `dl_array_init_l`; the result tells whether it has succeeded. -/
def arrayInit (t : DlTable) (size : Int) : DlTable × Bool :=
  if 0 < size then
    let (t, ok) := t.alloc A
    if ok then
      ({ t with array := some (List.replicate size.toNat ⟨0, .nil⟩), arrayId := t.allocs
                sizearray := size }, true)
    else ({ t with array := none }, false)
  else ({ t with sizearray := size }, true)

/-- An array of nodes of which none is in use. -/
def freeNodes (size : Nat) : Objects Node :=
  fun i ↦ if i < size then some ⟨⟨0, .nil⟩, .nil, none⟩ else none

/-- `dl_node_init_l`; the result tells whether it has succeeded. -/
def nodeInit (t : DlTable) (size : Int) : DlTable × Bool :=
  if size = 0 then ({ t with node := .dummy, lsizenode := 0, lastfree := none }, true)
  else
    let lsize := ceillog2 64 (size % 2 ^ 64).toNat
    if maxBits < lsize then (t, false)
    else
      let (t, ok) := t.alloc A
      if ok then
        ({ t with node := .nodes (freeNodes (2 ^ lsize.toNat)), lsizenode := lsize.toNat
                  lastfree := some (2 ^ lsize.toNat) }, true)
      else ({ t with node := .null }, false)

/-- The loop of `getfreepos`: the new `lastfree` and the free node. -/
def getfreeposLoop (t : DlTable) : Nat → Exec (Int × Option Nat)
  | 0 => .ok (-1, none)
  | i + 1 => do
    let n ← loadNode t i
    if n.key = .nil then pure ((i : Int), some i) else getfreeposLoop t i

/-- `getfreepos`. -/
def getfreepos (t : DlTable) : Exec (DlTable × Option Nat) :=
  match t.lastfree with
  | none => .ok (t, none)
  | some k =>
    if 0 < k then do
      let (k, n) ← getfreeposLoop t k.toNat
      pure ({ t with lastfree := some k }, n)
    else .ok ({ t with lastfree := some (k - 1) }, none)

/-- What an insertion gives back: the table, and the pointer to the value unless it has failed. -/
abbrev Insertion := DlTable × Option Loc

/-- Reading from the old array, unless it has been freed. -/
def loadOld (t : DlTable) (id i : Nat) : Exec Value :=
  if t.arrayId = id then loadArray t i else Exec.undef

/-- The values of the old array that are beyond the end of the new one go to the nodes. -/
def shrinkLoop (setL : DlTable → Key → Exec Insertion) (id : Nat) :
    Nat → Nat → DlTable → Exec DlTable
  | 0, _, t => .ok t
  | k + 1, i, t => do
    let v ← loadOld t id i
    if v.tt = .nil then shrinkLoop setL id k (i + 1) t
    else
      match ← setL t (.int i) with
      | (_, none) => Exec.undef
      | (t, some l) => do
        let v ← loadOld t id i
        let t ← writeVal t l v
        shrinkLoop setL id k (i + 1) t

/-- The values of the old nodes are inserted again. -/
def reinsertLoop (setL : DlTable → Key → Exec Insertion) (old : NodePart) :
    Nat → DlTable → Exec DlTable
  | 0, t => .ok t
  | i + 1, t => do
    let n ← old.load i
    if n.val.tt = .nil then reinsertLoop setL old i t
    else
      match ← setL t n.key with
      | (_, none) => Exec.undef
      | (t, some l) => do
        let t ← writeVal t l n.val
        reinsertLoop setL old i t

/-- The part of `resize` that gives the array a larger size and copies the old values. -/
def growArray (t : DlTable) (nasize : Int) : Exec (DlTable × Bool) :=
  if t.sizearray < nasize then
    match arrayInit A t nasize with
    | (t', false) => .ok (t', false)
    | (t', true) =>
      match t.array, t'.array with
      | some old, some new =>
        if t.sizearray ≤ old.length then
          .ok ({ t' with array := some (old.take t.sizearray.toNat ++
            new.drop t.sizearray.toNat) }, true)
        else Exec.undef
      | _, _ => .ok (t', true)
  else .ok (t, true)

/-- The part of `resize` that gives the array a smaller size than its old one. -/
def shrinkArray (setL : DlTable → Key → Exec Insertion) (oldasize nasize : Int) (t : DlTable) :
    Exec DlTable :=
  if nasize < oldasize then
    shrinkLoop setL t.arrayId (oldasize - nasize).toNat nasize.toNat { t with sizearray := nasize }
  else .ok t

/-- The part of `resize` for the old nodes. -/
def reinsert (setL : DlTable → Key → Exec Insertion) (old : NodePart) (oldsize : Nat) (t : DlTable) :
    Exec DlTable :=
  if old.isDummy then .ok t else reinsertLoop setL old oldsize t

/-- `resize`; the result tells whether it has succeeded. -/
def resize (setL : DlTable → Key → Exec Insertion) (t : DlTable) (nasize nhsize : Int) :
    Exec (DlTable × Bool) := do
  match ← growArray A t nasize with
  | (t₁, false) => pure (t₁, false)
  | (t₁, true) =>
    match nodeInit A t₁ nhsize with
    | (t₂, false) => pure (t₂, false)
    | (t₂, true) => do
      let t₃ ← shrinkArray setL t.sizearray nasize t₂
      let t₄ ← reinsert setL t.node t.sizenode t₃
      pure (t₄, true)

/-- `dl_rehash`; the result tells whether it has succeeded. -/
def rehash (setL : DlTable → Key → Exec Insertion) (t : DlTable) (ek : Key) :
    Exec (DlTable × Bool) := do
  let (nasize, nhsize) ← newSizes t ek
  resize A setL t nasize nhsize

/-- The key is put in the node at `mp`. -/
def placeKey (t : DlTable) (mp : Nat) (key : Key) : Exec Insertion := do
  let m ← loadNode t mp
  let t ← storeNode t mp { m with key }
  pure (t, some (.node mp))

/-- The part of `dl_newkey_l` for a main position `mp` that is in use, with the free node `n`. -/
def insertFree (fuel : Nat) (t : DlTable) (mp n : Nat) (key : Key) : Exec Insertion := do
  let m ← loadNode t mp
  let othern ← mainPos t m.key
  if mp ≠ othern then do
    -- the node at `mp` moves to the free node
    let prev ← findPrev t mp fuel othern
    let p ← loadNode t prev
    let t ← storeNode t prev { p with next := some n }
    let m ← loadNode t mp
    let t ← storeNode t n m
    let t ← storeNode t mp { m with val := { m.val with tt := .nil }, next := none }
    placeKey t mp key
  else do
    -- the free node is put into the chain
    let f ← loadNode t n
    let t ← storeNode t n { f with next := m.next }
    let t ← storeNode t mp { m with next := some n }
    placeKey t n key

/-- `dl_newkey_l`, with `dl_set_l` for the case that there has been a rehash. -/
def newkeyWith (setL : DlTable → Key → Exec Insertion) (fuel : Nat) (t : DlTable) (key : Key) :
    Exec Insertion := do
  let mp ← mainPos t key
  let m ← loadNode t mp
  if m.val.tt ≠ .nil ∨ t.node.isDummy then do
    match ← getfreepos t with
    | (t, none) => do
      let (t, ok) ← rehash A setL t key
      if ok then setL t key else pure (t, none)
    | (t, some n) => insertFree fuel t mp n key
  else placeKey t mp key

/-- `dl_set_l`, with the number of nested calls of `dl_rehash` that there may be. -/
def setL (fuel : Nat) : Nat → DlTable → Key → Exec Insertion
  | 0, _, _ => Exec.timeout
  | depth + 1, t, key => do
    match ← findL fuel t key with
    | some l => pure (t, some l)
    | none => newkeyWith A (setL fuel depth) fuel t key

/-- `dl_newkey_l`. -/
def newkey (fuel depth : Nat) (t : DlTable) (key : Key) : Exec Insertion :=
  newkeyWith A (setL A fuel depth) fuel t key

/-- `dl_array_set`. -/
def arraySet (fuel depth : Nat) (t : DlTable) (index : Int) (v : Option Loc) : Exec Insertion :=
  match v with
  | none => newkey A fuel depth t (.int index)
  | some l => do
    let old ← readVal t l
    let t ← release t old
    pure (t, some l)

/-- `dl_array_set_str` and `dl_node_set_str`. -/
def setStr (t : DlTable) (l : Loc) (str : List UInt8) : Exec (DlTable × Status) := do
  let old ← readVal t l
  let (t, ok) := t.alloc A
  if ok then do
    let p := A.run t.mem
    let t ← writeVal { t with mem := t.mem.set p none } l { old with v := p }
    let (t, ok) := t.alloc A
    if ok then do
      let t ← writeVal { t with mem := t.mem.set p (some str) } l ⟨p, .str⟩
      pure (t, .ok)
    else pure (t, .error)
  else do
    let t ← writeVal t l { old with v := 0 }
    pure (t, .error)

/-- `dl_array_set_int_l`. -/
def arraySetInt (fuel depth : Nat) (t : DlTable) (index value : Int) : Exec (DlTable × Status) := do
  let v ← findByIndex fuel t index
  match ← arraySet A fuel depth t index v with
  | (t, none) => pure (t, .error)
  | (t, some l) => do
    let t ← writeVal t l ⟨value, .int⟩
    pure (t, .ok)

/-- `dl_array_set_str_l`. -/
def arraySetStr (fuel depth : Nat) (t : DlTable) (index : Int) (str : List UInt8) :
    Exec (DlTable × Status) := do
  let v ← findByIndex fuel t index
  match ← arraySet A fuel depth t index v with
  | (t, none) => pure (t, .error)
  | (t, some l) => setStr A t l str

/-- The test of the setters for pointers: whether the bits at the location are those of the
pointer. -/
def samePointer (t : DlTable) (v : Option Loc) (value : Int) : Exec Bool :=
  match v with
  | none => .ok false
  | some l => do
    let old ← readVal t l
    pure (decide (old.v = value))

/-- `dl_array_set_void_l`. -/
def arraySetVoid (fuel depth : Nat) (t : DlTable) (index value : Int) :
    Exec (DlTable × Status) := do
  let v ← findByIndex fuel t index
  if ← samePointer t v value then pure (t, .ok)
  else
    match ← arraySet A fuel depth t index v with
    | (t, none) => pure (t, .error)
    | (t, some l) => do
      let t ← writeVal t l ⟨value, .void⟩
      pure (t, .ok)

/-- `dl_node_set`. -/
def nodeSet (fuel depth : Nat) (t : DlTable) (str : List UInt8) (v : Option Loc) : Exec Insertion :=
  match v with
  | none =>
    let (t, ok) := t.alloc A
    if ok then
      let p := A.run t.mem
      let t := { t with mem := t.mem.set p none }
      let (t, ok) := t.alloc A
      if ok then newkey A fuel depth { t with mem := t.mem.set p (some str) } (.str p)
      else .ok (t, none)
    else .ok (t, none)
  | some l => do
    let old ← readVal t l
    let t ← release t old
    pure (t, some l)

/-- `dl_node_set_int_l`. -/
def nodeSetInt (fuel depth : Nat) (t : DlTable) (str : List UInt8) (value : Int) :
    Exec (DlTable × Status) := do
  let v ← findByStr fuel t str
  match ← nodeSet A fuel depth t str v with
  | (t, none) => pure (t, .error)
  | (t, some l) => do
    let t ← writeVal t l ⟨value, .int⟩
    pure (t, .ok)

/-- `dl_node_set_str_l`. -/
def nodeSetStr (fuel depth : Nat) (t : DlTable) (str vstr : List UInt8) :
    Exec (DlTable × Status) := do
  let v ← findByStr fuel t str
  match ← nodeSet A fuel depth t str v with
  | (t, none) => pure (t, .error)
  | (t, some l) => setStr A t l vstr

/-- `dl_node_set_void_l`. -/
def nodeSetVoid (fuel depth : Nat) (t : DlTable) (str : List UInt8) (value : Int) :
    Exec (DlTable × Status) := do
  let v ← findByStr fuel t str
  if ← samePointer t v value then pure (t, .ok)
  else
    match ← nodeSet A fuel depth t str v with
    | (t, none) => pure (t, .error)
    | (t, some l) => do
      let t ← writeVal t l ⟨value, .void⟩
      pure (t, .ok)

/-- `dl_table_new`, with the memory and the number of allocations so far; there is no table if
it fails. -/
def tableNew (m : Mem) (allocs : Nat) (narray nhash : Int) : Option DlTable :=
  let t : DlTable :=
    { mem := m, allocs, voids := [], lsizenode := 0, sizearray := 0, array := none, arrayId := 0
      node := .dummy, lastfree := none }
  match arrayInit A t narray with
  | (_, false) => none
  | (t, true) =>
    match nodeInit A t nhash with
    | (_, false) => none
    | (t, true) => some t

end

/-- The loop of `dl_table_destroy` over the array, with the number of rounds to go. -/
def destroyArray : Nat → Nat → DlTable → Exec DlTable
  | 0, _, t => .ok t
  | k + 1, i, t => do
    let v ← loadArray t i
    let t ← release t v
    destroyArray k (i + 1) t

/-- The loop of `dl_table_destroy` over the nodes, with the number of rounds to go. -/
def destroyNodes : Nat → Nat → DlTable → Exec DlTable
  | 0, _, t => .ok t
  | k + 1, i, t => do
    let n ← loadNode t i
    let t ← freeKey t n.key
    let t ← release t n.val
    destroyNodes k (i + 1) t

/-- `dl_table_destroy`: what it has done when it frees the table. -/
def destroy (t : DlTable) : Exec DlTable := do
  let t ← destroyArray t.sizearray.toNat 0 t
  destroyNodes t.sizenode 0 t

end Dlbase.Table
