import Dlbase.Lib.LinkedTree

/-!
# The AVL tree of `dl_bstree.c`

The functions of `dl_bstree.c` on a memory of nodes.  Empty subtrees are null pointers.  Each
node stores its height as a `ulong`; a balance is the difference of two heights, which is a
`ulong` again and so never negative.  Only when the balance of the node at hand is stored in
an `int` does it get a sign.
-/

namespace Dlbase.Bstree

open Cmem

/-- Machine addresses. -/
abbrev Addr := UInt64

/-- Pointers to nodes. -/
abbrev Ptr := Option Addr

/-- The fields of a `dl_bstree_node` other than its links. -/
structure Data where
  /-- The key, a `long`. -/
  key : Int
  /-- The stored height, a `ulong`. -/
  height : Nat
deriving DecidableEq, Repr

/-- The memory of nodes. -/
abbrev Cells := Heap Addr Data

/-- `dl_bstree_insert_pt`, with the fuel of its recursion: the new root of the subtree. -/
abbrev InsertPt := Nat → Cells → Ptr → Ptr → Exec (Cells × Ptr)

/-- A `dl_bstree`. -/
structure Tree where
  /-- The root node. -/
  root : Ptr
  /-- How a node is inserted below the root. -/
  insert : InsertPt

/-- A `dl_bstree` together with the memory of nodes. -/
structure State extends Tree where
  /-- The nodes. -/
  cells : Cells

/-! ## Machine arithmetic -/

/-- A value stored in a `ulong`. -/
def word (n : Nat) : Nat := n % 2 ^ 64

/-- The difference of two values of type `ulong`. -/
def subWord (n m : Nat) : Nat := (n + (2 ^ 64 - m % 2 ^ 64)) % 2 ^ 64

/-- A `ulong` converted to `int`. -/
def toInt (n : Nat) : Int :=
  if n % 2 ^ 32 < 2 ^ 31 then (n % 2 ^ 32 : Nat) else (n % 2 ^ 32 : Nat) - 2 ^ 32

/-! ## Fields -/

/-- `node->left` or `node->right`. -/
def child (h : Cells) (d : Side) (p : Ptr) : Exec Ptr := do
  let n ← h.load p
  pure (n.child d)

/-- `node->left`. -/
abbrev left (h : Cells) (p : Ptr) : Exec Ptr := child h .left p

/-- `node->right`. -/
abbrev right (h : Cells) (p : Ptr) : Exec Ptr := child h .right p

/-- `node->parent`. -/
def parent (h : Cells) (p : Ptr) : Exec Ptr := do
  let n ← h.load p
  pure n.parent

/-- `node->key`. -/
def key (h : Cells) (p : Ptr) : Exec Int := do
  let n ← h.load p
  pure n.data.key

/-- `node->left = q` or `node->right = q`. -/
def setChild (h : Cells) (d : Side) (p q : Ptr) : Exec Cells := h.store p (·.setChild d q)

/-- `node->left = q`. -/
abbrev setLeft (h : Cells) (p q : Ptr) : Exec Cells := setChild h .left p q

/-- `node->right = q`. -/
abbrev setRight (h : Cells) (p q : Ptr) : Exec Cells := setChild h .right p q

/-- `node->parent = q`. -/
def setParent (h : Cells) (p q : Ptr) : Exec Cells := h.store p (·.setParent q)

/-- `if(p != NULL) p->parent = q`. -/
def hang (h : Cells) (p q : Ptr) : Exec Cells := if p ≠ none then setParent h p q else pure h

/-- `dl_bst_height(n)`. -/
def height (h : Cells) (p : Ptr) : Exec Nat := do
  if p = none then
    pure 0
  else
    let n ← h.load p
    pure n.data.height

/-- `dl_bst_get_balance(n)`. -/
def getBalance (h : Cells) (p : Ptr) : Exec Nat := do
  if p = none then
    pure 0
  else
    let l ← height h (← left h p)
    let r ← height h (← right h p)
    pure (subWord l r)

/-- `node->height = 1 + dl_max(dl_bst_height(node->left), dl_bst_height(node->right))`. -/
def updateHeight (h : Cells) (p : Ptr) : Exec Cells := do
  let l ← height h (← left h p)
  let r ← height h (← right h p)
  h.store p (·.mapData ({ · with height := word (1 + max l r) }))

/-! ## Searching -/

/-- `dl_bstree_min`. -/
def min : Nat → Cells → Ptr → Exec Ptr
  | 0, _, _ => Exec.timeout
  | fuel + 1, h, node => do
    if node = none then
      pure none
    else
      let l ← left h node
      if l ≠ none then min fuel h l else pure node

/-- The loop of `dl_bstree_find_by_key`. -/
def find : Nat → Cells → Ptr → Int → Exec Ptr
  | 0, _, _, _ => Exec.timeout
  | fuel + 1, h, cur, k => do
    if cur = none then
      pure none
    else
      let c ← key h cur
      if c = k then
        pure cur
      else if k < c then
        find fuel h (← left h cur) k
      else
        find fuel h (← right h cur) k

/-- `dl_bstree_find_by_key`. -/
def findByKey (fuel : Nat) (s : State) (k : Int) : Exec Ptr := find fuel s.cells s.root k

/-! ## Rotating -/

/-- `dl_bstree_right_rotate`. -/
def rightRotate (h : Cells) (node : Ptr) : Exec (Cells × Ptr) := do
  let root ← left h node
  let h ← setLeft h node (← right h root)
  let h ← hang h (← right h root) node
  let h ← setRight h root node
  let h ← setParent h node root
  let h ← setParent h root none
  let h ← updateHeight h node
  let h ← updateHeight h root
  pure (h, root)

/-- `dl_bstree_left_rotate`. -/
def leftRotate (h : Cells) (node : Ptr) : Exec (Cells × Ptr) := do
  let root ← right h node
  let h ← setRight h node (← left h root)
  let h ← hang h (← left h root) node
  let h ← setLeft h root node
  let h ← setParent h node root
  let h ← setParent h root none
  let h ← updateHeight h node
  let h ← updateHeight h root
  pure (h, root)

/-! ## Inserting -/

/-- `p->key < q->key`. -/
def keyLt (h : Cells) (p q : Ptr) : Exec Bool := do
  let k ← key h p
  let k' ← key h q
  pure (decide (k < k'))

/-- `dl_bstree_insert_repair`. -/
def insertRepair (h : Cells) (target node : Ptr) : Exec (Cells × Ptr) := do
  let h ← updateHeight h target
  let balance := toInt (← getBalance h target)
  if ← pure (decide (1 < balance)) <&&> (do keyLt h node (← left h target)) then
    rightRotate h target
  else do
    if ← pure (decide (balance < -1)) <&&> (do keyLt h (← right h target) node) then
      leftRotate h target
    else do
      if ← pure (decide (1 < balance)) <&&> (do keyLt h (← left h target) node) then
        let (h, l) ← leftRotate h (← left h target)
        let h ← setLeft h target l
        rightRotate h target
      else do
        if ← pure (decide (balance < -1)) <&&> (do keyLt h node (← right h target)) then
          let (h, r) ← rightRotate h (← right h target)
          let h ← setRight h target r
          leftRotate h target
        else
          pure (h, target)

/-- The end of `dl_bstree_insert_value`, after the link on the side `d` has been set. -/
def adopt (h : Cells) (d : Side) (target node : Ptr) : Exec (Cells × Ptr) := do
  let h ← setParent h (← child h d target) target
  insertRepair h target node

/-- Either branch of `dl_bstree_insert_value`, `insert` being the recursive call. -/
def insertBelow (insert : Cells → Ptr → Exec (Cells × Ptr)) (h : Cells) (d : Side)
    (target node : Ptr) : Exec (Cells × Ptr) := do
  let c ← child h d target
  if c = none then
    let h ← setChild h d target node
    adopt h d target node
  else
    let (h, c) ← insert h c
    let h ← setChild h d target c
    if c = none then pure (h, none) else adopt h d target node

/-- `dl_bstree_insert_value`. -/
def insertValue : InsertPt
  | 0, _, _, _ => Exec.timeout
  | fuel + 1, h, target, node => do
    let k ← key h node
    let t ← key h target
    if k < t then
      insertBelow (fun h c ↦ insertValue fuel h c node) h .left target node
    else if t < k then
      insertBelow (fun h c ↦ insertValue fuel h c node) h .right target node
    else
      pure (h, none)

/-- `dl_bstree_insert`. -/
def insert (fuel : Nat) (s : State) (node : Ptr) : Exec (State × Ptr) := do
  let h ← s.cells.store node (·.mapData ({ · with height := 1 }))
  let h ← setLeft h node none
  let h ← setRight h node none
  let h ← setParent h node none
  if s.root = none then
    pure ({ s with root := node, cells := h }, node)
  else
    let (h, root) ← s.insert fuel h s.root node
    if root = none then
      pure ({ s with cells := h }, none)
    else
      pure ({ s with root := root, cells := h }, root)

/-- `dl_bstree_init(tree, i)`. -/
def init (cells : Cells) (i : InsertPt) : State where
  root := none
  insert := i
  cells := cells

/-! ## Deleting -/

/-- A node without children leaves its parent. -/
def unlink (h : Cells) (node : Ptr) : Exec Cells := do
  let p ← parent h node
  if p = none then
    pure h
  else
    let l ← left h p
    if node = l then setLeft h p none else setRight h p none

/-- `child` is hung under the parent of `node`. -/
def replace (h : Cells) (node child : Ptr) : Exec Cells := do
  let p ← parent h node
  if p = none then
    setParent h child none
  else
    let h ← setParent h child p
    let r ← right h p
    if node = r then setRight h p child else setLeft h p child

/-- `node->left ? node->left : node->right`. -/
def onlyChild (h : Cells) (node : Ptr) : Exec Ptr := do
  let l ← left h node
  if l ≠ none then pure l else right h node

/-- A node with one child at most leaves the tree; its child, if any, is the new root. -/
def splice (h : Cells) (node : Ptr) : Exec (Cells × Ptr) := do
  let child ← onlyChild h node
  if child = none then
    let h ← unlink h node
    pure (h, none)
  else
    let h ← replace h node child
    pure (h, child)

/-- A node and its successor `child` change places. -/
def swap (h : Cells) (node child : Ptr) : Exec Cells := do
  let temp ← h.load child
  let h ← replace h node child
  let h ← setLeft h child (← left h node)
  let h ← setParent h (← left h node) child
  let r ← right h node
  if r = child then
    let h ← setRight h child node
    let h ← setParent h node child
    let h ← setLeft h node none
    let h ← setRight h node temp.right
    hang h temp.right node
  else
    let h ← setRight h child r
    let h ← setParent h r child
    let h ← setLeft h node none
    let h ← setParent h node temp.parent
    let h ← setLeft h temp.parent node
    let h ← setRight h node temp.right
    hang h temp.right node

/-- The end of `dl_bstree_delete`. -/
def rebalance (h : Cells) (node : Ptr) : Exec (Cells × Ptr) := do
  let h ← updateHeight h node
  let balance := toInt (← getBalance h node)
  if ← pure (decide (1 < balance)) <&&> (do pure (decide (0 ≤ (← getBalance h (← left h node))))) then
    rightRotate h node
  else do
    if ← pure (decide (balance < -1)) <&&>
        (do pure (decide ((← getBalance h (← right h node)) ≤ 0))) then
      leftRotate h node
    else do
      if ← pure (decide (1 < balance)) <&&>
          (do pure (decide ((← getBalance h (← left h node)) < 0))) then
        let (h, l) ← leftRotate h (← left h node)
        let h ← setLeft h node l
        rightRotate h node
      else do
        if ← pure (decide (balance < -1)) <&&>
            (do pure (decide (0 < (← getBalance h (← right h node))))) then
          let (h, r) ← rightRotate h (← right h node)
          let h ← setRight h node r
          leftRotate h node
        else
          pure (h, node)

/-- `dl_bstree_delete`. -/
def delete : Nat → Cells → Ptr → Int → Exec (Cells × Ptr)
  | 0, _, _, _ => Exec.timeout
  | fuel + 1, h, node, k => do
    if node = none then
      pure (h, none)
    else
      let n ← key h node
      if k < n then
        let (h, q) ← delete fuel h (← left h node) k
        let h ← setLeft h node q
        rebalance h node
      else if n < k then
        let (h, q) ← delete fuel h (← right h node) k
        let h ← setRight h node q
        rebalance h node
      else
        let l ← left h node
        let r ← right h node
        if l = none ∨ r = none then
          splice h node
        else
          let child ← min fuel h r
          let h ← swap h node child
          let (h, q) ← delete fuel h (← right h child) n
          let h ← setRight h child q
          rebalance h child

/-- `dl_bstree_delete_by_key`. -/
def deleteByKey (fuel : Nat) (s : State) (k : Int) : Exec (State × Ptr) := do
  if s.root = none then
    pure (s, none)
  else
    let (h, root) ← delete fuel s.cells s.root k
    pure ({ s with root := root, cells := h }, root)

end Dlbase.Bstree
