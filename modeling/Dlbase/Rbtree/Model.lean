import Dlbase.Lib.LinkedTree

/-!
# The red-black tree of `dl_rbtree.c`

The functions of `dl_rbtree.c` on a memory of nodes.  A tree is set up by
`dl_rbtree_init` around a sentinel node, which stands for every empty subtree
and whose own links the code never sets.  Nodes belong to the caller: insertion
links a given node in, deletion links it out.

`dl_rbtree_delete` works with a copy of a node on its stack, which stays linked
into the tree while the colours are repaired.  The address of that copy is the
argument `bak`.
-/

namespace Dlbase.Rbtree

open Cmem

/-- Machine addresses. -/
abbrev Addr := UInt64

/-- Pointers to nodes. -/
abbrev Ptr := Option Addr

/-- The values of the field `color`: `dl_rbt_red` stores 1 and `dl_rbt_black` 0. -/
inductive Color where
  | black
  | red
deriving DecidableEq, Repr

/-- The fields of a `dl_rbtree_node` other than its links. -/
structure Data where
  /-- The key, a `long`. -/
  key : Int
  /-- The colour. -/
  color : Color
deriving DecidableEq, Repr

/-- The memory of nodes. -/
abbrev Cells := Heap Addr Data

/-- `dl_rbtree_insert_pt`, with the fuel of its loop. -/
abbrev InsertPt := Nat → Cells → Ptr → Ptr → Ptr → Exec Cells

/-- A `dl_rbtree`. -/
structure Tree where
  /-- The root node, or the sentinel when the tree is empty. -/
  root : Ptr
  /-- The sentinel node. -/
  sentinel : Ptr
  /-- How a node is hung into the tree. -/
  insert : InsertPt

/-- A `dl_rbtree` together with the memory of nodes. -/
structure State extends Tree where
  /-- The nodes. -/
  cells : Cells

namespace State

/-- `node->left` or `node->right`. -/
def child (s : State) (d : Side) (p : Ptr) : Exec Ptr := do
  let n ← s.cells.load p
  pure (n.child d)

/-- `node->left`. -/
abbrev left (s : State) (p : Ptr) : Exec Ptr := s.child .left p

/-- `node->right`. -/
abbrev right (s : State) (p : Ptr) : Exec Ptr := s.child .right p

/-- `node->parent`. -/
def parent (s : State) (p : Ptr) : Exec Ptr := do
  let n ← s.cells.load p
  pure n.parent

/-- `node->color`. -/
def color (s : State) (p : Ptr) : Exec Color := do
  let n ← s.cells.load p
  pure n.data.color

/-- `dl_rbt_is_black(node)`. -/
def isBlack (s : State) (p : Ptr) : Exec Bool := do
  let c ← s.color p
  pure (decide (c = .black))

/-- `dl_rbt_is_red(node)`. -/
def isRed (s : State) (p : Ptr) : Exec Bool := do
  let c ← s.color p
  pure (decide (c = .red))

/-- `node->left = q` or `node->right = q`. -/
def setChild (s : State) (d : Side) (p q : Ptr) : Exec State := do
  let cells ← s.cells.store p (·.setChild d q)
  pure { s with cells }

/-- `node->left = q`. -/
abbrev setLeft (s : State) (p q : Ptr) : Exec State := s.setChild .left p q

/-- `node->right = q`. -/
abbrev setRight (s : State) (p q : Ptr) : Exec State := s.setChild .right p q

/-- `node->parent = q`. -/
def setParent (s : State) (p q : Ptr) : Exec State := do
  let cells ← s.cells.store p (·.setParent q)
  pure { s with cells }

/-- `node->color = c`. -/
def setColor (s : State) (p : Ptr) (c : Color) : Exec State := do
  let cells ← s.cells.store p (·.mapData ({ · with color := c }))
  pure { s with cells }

/-- `*root = q`. -/
def setRoot (s : State) (q : Ptr) : State := { s with root := q }

end State

/-! ## Setting up and inserting -/

/-- `dl_rbtree_init(tree, n, i)`: the sentinel is blackened, its links are left as they are. -/
def init (cells : Cells) (n : Addr) (i : InsertPt) : State where
  root := some n
  sentinel := some n
  insert := i
  cells := cells.upd n (·.mapData ({ · with color := .black }))

/-- `dl_rbtree_insert_value`.  The pointer `p` into `temp` is the side it selects. -/
def insertValue : InsertPt
  | 0, _, _, _, _ => Exec.timeout
  | fuel + 1, cells, temp, node, sentinel => do
    let n ← cells.load node
    let t ← cells.load temp
    let d : Side := if n.data.key < t.data.key then .left else .right
    if t.child d = sentinel then
      let cells ← cells.store temp (·.setChild d node)
      let cells ← cells.store node (·.setParent temp)
      let cells ← cells.store node (·.setChild .left sentinel)
      let cells ← cells.store node (·.setChild .right sentinel)
      cells.store node (·.mapData ({ · with color := .red }))
    else
      insertValue fuel cells (t.child d) node sentinel

/-- `dl_rbtree_grandparent`. -/
def grandparent (s : State) (node : Ptr) : Exec Ptr := do
  let p ← s.parent node
  if p = none then pure none else s.parent p

/-- `dl_rbtree_sibling`. -/
def sibling (s : State) (node : Ptr) : Exec Ptr := do
  let p ← s.parent node
  if p = none then
    pure none
  else
    let l ← s.left p
    if node = l then s.right p else s.left p

/-- `dl_rbtree_uncle`. -/
def uncle (s : State) (node : Ptr) : Exec Ptr := do
  let p ← s.parent node
  let g ← grandparent s node
  if g = none then pure none else sibling s p

/-- `if(p != sentinel) p->parent = q`. -/
def hang (s : State) (p q sentinel : Ptr) : Exec State :=
  if p ≠ sentinel then s.setParent p q else pure s

/-- The end of both rotations: hangs `rn` where `node` hung under `p`. -/
def relink (s : State) (p node rn : Ptr) : Exec State := do
  if p = none then
    pure (s.setRoot rn)
  else
    let l ← s.left p
    if node = l then s.setLeft p rn else s.setRight p rn

/-- `dl_rbtree_left_rotate`. -/
def leftRotate (s : State) (node sentinel : Ptr) : Exec State := do
  let rn ← s.right node
  let p ← s.parent node
  let s ← s.setRight node (← s.left rn)
  let s ← s.setLeft rn node
  let s ← s.setParent node rn
  let r ← s.right node
  let s ← hang s r node sentinel
  let s ← relink s p node rn
  s.setParent rn p

/-- `dl_rbtree_right_rotate`. -/
def rightRotate (s : State) (node sentinel : Ptr) : Exec State := do
  let ln ← s.left node
  let p ← s.parent node
  let s ← s.setLeft node (← s.right ln)
  let s ← s.setRight ln node
  let s ← s.setParent node ln
  let l ← s.left node
  let s ← hang s l node sentinel
  let s ← relink s p node ln
  s.setParent ln p

/-- The last case of `dl_rbtree_repair`: a red node under a red parent and a black uncle. -/
def repairRotate (s : State) (node sentinel : Ptr) : Exec State := do
  let p ← s.parent node
  let g ← s.parent p
  let lr ← s.right (← s.left g)
  let (s, node) ←
    if node = lr then do
      let s ← leftRotate s node sentinel
      pure (s, ← s.left node)
    else do
      let rl ← s.left (← s.right g)
      if node = rl then do
        let s ← rightRotate s p sentinel
        pure (s, ← s.right node)
      else pure (s, node)
  let p ← s.parent node
  let g ← s.parent p
  let l ← s.left p
  let s ← if node = l then rightRotate s g sentinel else leftRotate s g sentinel
  let s ← s.setColor p .black
  s.setColor g .red

/-- `dl_rbtree_repair`. -/
def repair : Nat → State → Ptr → Ptr → Exec State
  | 0, _, _, _ => Exec.timeout
  | fuel + 1, s, node, sentinel => do
    let p ← s.parent node
    if p = none then
      s.setColor node .black
    else
      let pc ← s.color p
      if pc = .black then
        pure s
      else
        let u ← uncle s node
        let uc ← s.color u
        if uc = .red then
          let s ← s.setColor p .black
          let s ← s.setColor (← uncle s node) .black
          let g ← s.parent p
          let s ← s.setColor g .red
          repair fuel s g sentinel
        else
          repairRotate s node sentinel

/-- `dl_rbtree_insert`. -/
def insert (fuel : Nat) (s : State) (node : Ptr) : Exec State := do
  if s.root = s.sentinel then
    let s ← s.setParent node none
    let s ← s.setLeft node s.sentinel
    let s ← s.setRight node s.sentinel
    let s ← s.setColor node .black
    pure (s.setRoot node)
  else
    let cells ← s.insert fuel s.cells s.root node s.sentinel
    repair fuel { s with cells } node s.sentinel

/-! ## Deleting -/

/-- `dl_rbtree_min`. -/
def min : Nat → State → Ptr → Ptr → Exec Ptr
  | 0, _, _, _ => Exec.timeout
  | fuel + 1, s, node, sentinel => do
    let l ← s.left node
    if l ≠ sentinel then min fuel s l sentinel else pure node

/-- The left child of a node, or the right one when there is no left one. -/
def onlyChild (s : State) (node sentinel : Ptr) : Exec Ptr := do
  let l ← s.left node
  if l ≠ sentinel then pure l else s.right node

/-- The choice of `d_node` and `d_child` at the head of `dl_rbtree_delete`. -/
def selectNode (fuel : Nat) (s : State) (node : Ptr) : Exec (Ptr × Ptr) := do
  let l ← s.left node
  let r ← s.right node
  if l = s.sentinel then
    pure (node, r)
  else if r = s.sentinel then
    pure (node, l)
  else
    let d ← min fuel s r s.sentinel
    pure (d, ← onlyChild s d s.sentinel)

/-- The debug stores that clear the node leaving the tree. -/
def clear (s : State) (node : Ptr) : Exec State := do
  let s ← s.setLeft node none
  let s ← s.setRight node none
  let s ← s.setParent node none
  let cells ← s.cells.store node (·.mapData ({ · with key := 0 }))
  pure { s with cells }

/-- Copies `d_node` to the stack at `bak` and hangs the copy where `d_node` hung. -/
def backup (s : State) (dNode : Ptr) (bak : Addr) : Exec State := do
  let n ← s.cells.load dNode
  let s := { s with cells := s.cells.upd bak (fun _ ↦ n) }
  let l ← s.left n.parent
  if dNode = l then s.setLeft n.parent (some bak) else s.setRight n.parent (some bak)

/-- `if(p == &d_node_bak) d_node_bak.parent = q`. -/
def adopt (s : State) (p : Ptr) (bak : Addr) (q : Ptr) : Exec State :=
  if p = some bak then s.setParent (some bak) q else pure s

/-- Hangs `q` where `node` hung under `p`, unless `node` is the root. -/
def relinkRoot (s : State) (p node q : Ptr) : Exec State := do
  if node = s.root then
    pure (s.setRoot q)
  else
    let l ← s.left p
    if node = l then s.setLeft p q else s.setRight p q

/-- Replaces `node` by `d_node`, the two being different nodes. -/
def replace (s : State) (node dNode : Ptr) (bak : Addr) : Exec State := do
  let n ← s.cells.load node
  let s ← s.setLeft dNode n.left
  let s ← s.setRight dNode n.right
  let s ← s.setParent dNode n.parent
  let s ← s.setColor dNode n.data.color
  let s ← adopt s (← s.right dNode) bak dNode
  let s ← relinkRoot s n.parent node dNode
  let s ← hang s (← s.left dNode) dNode s.sentinel
  hang s (← s.right dNode) dNode s.sentinel

/-- `dl_rbtree_del_repair_done`: splices the node out of the tree. -/
def delRepairDone (s : State) (node sentinel : Ptr) : Exec State := do
  let child ← onlyChild s node sentinel
  let p ← s.parent node
  let s ← hang s child p sentinel
  let pl ← s.left p
  if pl = node then s.setLeft p child else s.setRight p child

/-- Case 2 of `dl_rbtree_delete_repair`: a red sibling. -/
def deleteCase2 (s : State) (n sentinel : Ptr) : Exec State := do
  let b ← sibling s n
  if ← s.isRed b then
    let p ← s.parent n
    let s ← s.setColor p .red
    let s ← s.setColor b .black
    let l ← s.left p
    if n = l then leftRotate s p sentinel else rightRotate s p sentinel
  else
    pure s

/-- Case 5 of `dl_rbtree_delete_repair`: a black sibling `b` whose near child is red and
whose far child is black. -/
def deleteCase5 (s : State) (n b sentinel : Ptr) : Exec State := do
  if ← s.isBlack b then
    let p ← s.parent n
    let l ← s.left p
    let r ← s.right p
    let bl ← s.left b
    let br ← s.right b
    if ← pure (decide (n = l)) <&&> s.isBlack br <&&> s.isRed bl then
      let s ← s.setColor b .red
      let s ← s.setColor bl .black
      rightRotate s b sentinel
    else do
      if ← pure (decide (n = r)) <&&> s.isBlack bl <&&> s.isRed br then
        let s ← s.setColor b .red
        let s ← s.setColor br .black
        leftRotate s b sentinel
      else
        pure s
  else
    pure s

/-- Case 6 of `dl_rbtree_delete_repair`: a black sibling whose far child is red. -/
def deleteCase6 (s : State) (n sentinel : Ptr) : Exec State := do
  let b ← sibling s n
  let p ← s.parent n
  let s ← s.setColor b (← s.color p)
  let s ← s.setColor p .black
  let l ← s.left p
  if n = l then
    let s ← s.setColor (← s.right b) .black
    leftRotate s p sentinel
  else
    let s ← s.setColor (← s.left b) .black
    rightRotate s p sentinel

/-- `dl_rbt_is_black(s) && dl_rbt_is_black(s->left) && dl_rbt_is_black(s->right)`. -/
def blackWithBlackChildren (s : State) (b : Ptr) : Exec Bool :=
  s.isBlack b <&&> (do s.isBlack (← s.left b)) <&&> (do s.isBlack (← s.right b))

/-- Cases 4 to 6 of `dl_rbtree_delete_repair`, with the sibling `b` and the parent `p`. -/
def deleteCase4 (s : State) (n b p sentinel : Ptr) : Exec State := do
  if ← s.isRed p <&&> blackWithBlackChildren s b then
    let s ← s.setColor b .red
    s.setColor p .black
  else
    let s ← deleteCase5 s n b sentinel
    deleteCase6 s n sentinel

/-- `dl_rbtree_delete_repair`.  Only the outermost call (`nest = 0`) splices `n` out. -/
def deleteRepair : Nat → State → Ptr → Ptr → Nat → Exec State
  | 0, _, _, _, _ => Exec.timeout
  | fuel + 1, s, n, sentinel, nest => do
    let p ← s.parent n
    if p = none then
      pure (s.setRoot n)
    else
      let s ← deleteCase2 s n sentinel
      let b ← sibling s n
      let p ← s.parent n
      let s ←
        if ← s.isBlack p <&&> blackWithBlackChildren s b then do
          -- case 3: the parent's paths are now all one short, so it is repaired in turn
          let s ← s.setColor b .red
          deleteRepair fuel s p sentinel 1
        else
          deleteCase4 s n b p sentinel
      if nest = 0 then delRepairDone s n sentinel else pure s

/-- The end of `dl_rbtree_delete`: the copy at `bak`, whose colour was `color` and whose only
child is `child`, is taken out. -/
def takeOut (fuel : Nat) (s : State) (color : Color) (child : Ptr) (bak : Addr) (sentinel : Ptr) :
    Exec State := do
  if color = .red then
    delRepairDone s (some bak) sentinel
  else if child ≠ sentinel then
    let s ← s.setColor child .black
    delRepairDone s (some bak) sentinel
  else
    deleteRepair fuel s (some bak) sentinel 0

/-- `dl_rbtree_delete`, with the stack copy `d_node_bak` at the address `bak`. -/
def delete (fuel : Nat) (s : State) (node : Ptr) (bak : Addr) : Exec State := do
  let sentinel := s.sentinel
  let (dNode, dChild) ← selectNode fuel s node
  let dColor ← s.color dNode
  if dNode = s.root then
    let s := s.setRoot dChild
    let s ← s.setColor dChild .black
    clear s node
  else
    let s ← backup s dNode bak
    if dNode ≠ node then
      let s ← replace s node dNode bak
      let s ← clear s node
      takeOut fuel s dColor dChild bak sentinel
    else
      let s ← clear s node
      takeOut fuel s dColor dChild bak sentinel

end Dlbase.Rbtree
