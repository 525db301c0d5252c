import Slos.Interruptible

/-!
# Red-black trees, one statement at a time

`rbtree.c` and the inline functions of `rbtree.h` and `rbtree_augmented.h` that it uses, on the links of the nodes. The two
mirrored halves of a rotation are one definition with the side of the tree as a parameter. A `NULL` pointer that is followed
faults, and so does the parent word of a black node that is followed as it stands.
-/

namespace Slos.RbTree
open Interruptible Straight

inductive Side
  | left
  | right
  deriving DecidableEq

def Side.other : Side → Side
  | .left => .right
  | .right => .left

/-- `__rb_parent_color` is the parent with the colour in its lowest bit. -/
structure RbNode (ν : Type) where
  rbParent : Option ν
  black : Bool
  rbRight : Option ν
  rbLeft : Option ν

structure RbRoot (ν : Type) where
  node : ν → RbNode ν
  rbNode : Option ν

/-- What `rb_link` points at: the root's `rb_node`, or a link of a node. -/
abbrev Link (ν : Type) := Option (ν × Side)

variable {ν : Type} [DecidableEq ν]

def RbNode.child (n : RbNode ν) : Side → Option ν
  | .left => n.rbLeft
  | .right => n.rbRight

def RbNode.setChild (n : RbNode ν) (c : Option ν) : Side → RbNode ν
  | .left => { n with rbLeft := c }
  | .right => { n with rbRight := c }

def RbRoot.setNode (m : RbRoot ν) (rb : ν) (n : RbNode ν) : RbRoot ν := { m with node := Function.update m.node rb n }

def RbRoot.link (m : RbRoot ν) : Link ν → Option ν
  | none => m.rbNode
  | some (n, side) => (m.node n).child side

def RbRoot.setLink (m : RbRoot ν) (c : Option ν) : Link ν → RbRoot ν
  | none => { m with rbNode := c }
  | some (n, side) => m.setNode n ((m.node n).setChild c side)

def child (side : Side) (n : ν) : Straight (RbRoot ν) (Option ν) := fetch fun m => (m.node n).child side

def setChild (side : Side) (n : ν) (c : Option ν) : Straight (RbRoot ν) Unit := store fun m => m.setLink c (some (n, side))

def readLink (l : Link ν) : Straight (RbRoot ν) (Option ν) := fetch fun m => m.link l

def rbParent (r : ν) : Straight (RbRoot ν) (Option ν) := fetch fun m => (m.node r).rbParent

def rbIsBlack (rb : ν) : Straight (RbRoot ν) Bool := fetch fun m => (m.node rb).black

/-- The parent and the colour of a node. -/
def parentColor (rb : ν) : Straight (RbRoot ν) (Option ν × Bool) := fetch fun m => ((m.node rb).rbParent, (m.node rb).black)

def rbSetParentColor (rb : ν) (p : Option ν) (black : Bool) : Straight (RbRoot ν) Unit :=
  store fun m => m.setNode rb { m.node rb with rbParent := p, black := black }

def rbSetParent (rb : ν) (p : Option ν) : Straight (RbRoot ν) Unit :=
  store fun m => m.setNode rb { m.node rb with rbParent := p }

def rbSetBlack (rb : ν) : Straight (RbRoot ν) Unit := store fun m => m.setNode rb { m.node rb with black := true }

/-- The word of a red node is its parent. -/
def rbRedParent (red : ν) : Straight (RbRoot ν) (Option ν) := do
  if ← rbIsBlack red then .fault
  rbParent red

def rbInitNode (rb : ν) : Straight (RbRoot ν) Unit := do
  rbSetParentColor rb none false
  setChild .right rb none
  setChild .left rb none
  rbSetParentColor rb (some rb) false

def rbLinkNode (node : ν) (parent : Option ν) (rbLink : Link ν) : Straight (RbRoot ν) Unit := do
  rbSetParentColor node parent false
  setChild .right node none
  setChild .left node none
  store fun m => m.setLink (some node) rbLink

def rbChangeChild (old : ν) (new parent : Option ν) : Straight (RbRoot ν) Unit := do
  match parent with
  | some parent =>
    if (← child .left parent) = some old then setChild .left parent new
    else setChild .right parent new
  | none => store fun m => { m with rbNode := new }

def rbRotateSetParents (old new : ν) (black : Bool) : Straight (RbRoot ν) Unit := do
  let parent ← rbParent old
  store fun m => m.setNode new { m.node new with rbParent := (m.node old).rbParent, black := (m.node old).black }
  rbSetParentColor old (some new) black
  rbChangeChild old (some new) parent

/-- `if (tmp) rb_set_parent_color(tmp, p, RB_BLACK)`. -/
def blacken (tmp : Option ν) (p : ν) : Straight (RbRoot ν) Unit :=
  match tmp with
  | some tmp => rbSetParentColor tmp (some p) true
  | none => pure ()

/-- `tmp && rb_is_red(tmp)`. -/
def redNode (tmp : Option ν) : Straight (RbRoot ν) Bool :=
  match tmp with
  | some tmp => not <$> rbIsBlack tmp
  | none => pure false

/-- A round of the loop of `__rb_insert` whose `parent` is the child of `gparent` on `side`; `tmp` is the other child. -/
def insertSide (side : Side) (node parent gparent : ν) (tmp : Option ν) :
    Straight (RbRoot ν) ((ν × Option ν) ⊕ Unit) := do
  if ← redNode tmp then
    -- Case 1: the colours flip, and the loop goes on at the grandparent.
    blacken tmp gparent
    rbSetParentColor parent (some gparent) true
    let up ← rbParent gparent
    rbSetParentColor gparent up false
    return .inl (gparent, up)
  let mut parent := parent
  let mut tmp ← child side.other parent
  if tmp = some node then
    -- Case 2: a rotation at the parent.
    tmp ← child side node
    setChild side.other parent tmp
    setChild side node (some parent)
    blacken tmp parent
    rbSetParentColor parent (some node) false
    parent := node
    tmp ← child side.other node
  -- Case 3: a rotation at the grandparent.
  setChild side gparent tmp
  setChild side.other parent (some gparent)
  blacken tmp gparent
  rbRotateSetParents gparent parent false
  return .inr ()

def insertRound : ν × Option ν → Straight (RbRoot ν) ((ν × Option ν) ⊕ Unit)
  | (node, none) => do
    rbSetParentColor node none true
    return .inr ()
  | (node, some parent) => do
    if ← rbIsBlack parent then return .inr ()
    let gparent ← deref (← rbRedParent parent)
    let tmp ← child .right gparent
    if tmp ≠ some parent then insertSide .left node parent gparent tmp
    else insertSide .right node parent gparent (← child .left gparent)

/-- `__rb_insert` with no augmentation. -/
def rbInsertColor (node : ν) : Straight (RbRoot ν) Unit := do
  let parent ← rbRedParent node
  iterate insertRound (node, parent)

/-- A round of the loop of `____rb_erase_color` whose `sibling` is the child of `parent` on the side other than `side`. -/
def eraseSide (side : Side) (parent : ν) (sibling : Option ν) : Straight (RbRoot ν) ((Option ν × ν) ⊕ Unit) := do
  let mut sibling ← deref sibling
  if ← not <$> rbIsBlack sibling then
    -- Case 1: a rotation at the parent.
    let tmp1 ← child side sibling
    setChild side.other parent tmp1
    setChild side sibling (some parent)
    rbSetParentColor (← deref tmp1) (some parent) true
    rbRotateSetParents parent sibling false
    sibling ← deref tmp1
  let mut tmp1 ← child side.other sibling
  if ← not <$> redNode tmp1 then
    let tmp2 ← child side sibling
    if ← not <$> redNode tmp2 then
      -- Case 2: the sibling's colour flips.
      rbSetParentColor sibling (some parent) false
      if ← rbIsBlack parent then
        match ← rbParent parent with
        | some up => return .inl (some parent, up)
        | none => return .inr ()
      else
        rbSetBlack parent
        return .inr ()
    -- Case 3: a rotation at the sibling.
    let tmp2 ← deref tmp2
    tmp1 ← child side.other tmp2
    setChild side sibling tmp1
    setChild side.other tmp2 (some sibling)
    setChild side.other parent (some tmp2)
    blacken tmp1 sibling
    tmp1 := some sibling
    sibling := tmp2
  -- Case 4: a rotation at the parent, and the colours flip.
  let tmp2 ← child side sibling
  setChild side.other parent tmp2
  setChild side sibling (some parent)
  rbSetParentColor (← deref tmp1) (some sibling) true
  match tmp2 with
  | some t => rbSetParent t (some parent)
  | none => pure ()
  rbRotateSetParents parent sibling true
  return .inr ()

def eraseRound : Option ν × ν → Straight (RbRoot ν) ((Option ν × ν) ⊕ Unit)
  | (node, parent) => do
    let sibling ← child .right parent
    if node ≠ sibling then eraseSide .left parent sibling
    else eraseSide .right parent (← child .left parent)

/-- `____rb_erase_color` with no augmentation. -/
def rbEraseColor (parent : ν) : Straight (RbRoot ν) Unit := iterate eraseRound (none, parent)

/-- `do { parent = successor; successor = tmp; tmp = tmp->rb_left; } while (tmp)`. -/
def successorRound : ν × ν → Straight (RbRoot ν) ((ν × ν) ⊕ (ν × ν))
  | (successor, tmp) => do
    match ← child .left tmp with
    | some next => return .inl (tmp, next)
    | none => return .inr (successor, tmp)

/-- The part of `__rb_erase_augmented` for a node with two children. -/
def eraseInner (node right : ν) : Straight (RbRoot ν) (Option ν) := do
  let (parent, successor, child2) ← match ← child .left right with
    | none => do
      let child2 ← child .right right
      pure (right, right, child2)
    | some tmp => do
      let (parent, successor) ← iterate successorRound (right, tmp)
      let child2 ← child .right successor
      setChild .left parent child2
      setChild .right successor (some right)
      rbSetParent right (some successor)
      pure (parent, successor, child2)
  let tmp ← child .left node
  setChild .left successor tmp
  rbSetParent (← deref tmp) (some successor)
  let pc ← parentColor node
  rbChangeChild node (some successor) pc.1
  match child2 with
  | some c =>
    rbSetParentColor successor pc.1 pc.2
    rbSetParentColor c (some parent) true
    return none
  | none =>
    let pc2 ← parentColor successor
    rbSetParentColor successor pc.1 pc.2
    return if pc2.2 then some parent else none

def rbEraseAugmented (node : ν) : Straight (RbRoot ν) (Option ν) := do
  let right ← child .right node
  match ← child .left node, right with
  | none, none =>
    let pc ← parentColor node
    rbChangeChild node none pc.1
    return if pc.2 then pc.1 else none
  | none, some right =>
    let pc ← parentColor node
    rbChangeChild node (some right) pc.1
    rbSetParentColor right pc.1 pc.2
    return none
  | some tmp, none =>
    let pc ← parentColor node
    rbSetParentColor tmp pc.1 pc.2
    rbChangeChild node (some tmp) pc.1
    return none
  | some _, some right => eraseInner node right

def rbErase (node : ν) : Straight (RbRoot ν) Unit := do
  match ← rbEraseAugmented node with
  | some rebalance => rbEraseColor rebalance
  | none => pure ()

/-- `while (node->rb_left) node = node->rb_left`. -/
def leftRound (node : ν) : Straight (RbRoot ν) (ν ⊕ Option ν) := do
  match ← child .left node with
  | some l => return .inl l
  | none => return .inr (some node)

/-- `while ((parent = rb_parent(node)) && node == parent->rb_right) node = parent`. -/
def upRound (node : ν) : Straight (RbRoot ν) (ν ⊕ Option ν) := do
  match ← rbParent node with
  | none => return .inr none
  | some parent =>
    if (← child .right parent) = some node then return .inl parent
    else return .inr (some parent)

def rbNext (node : ν) : Straight (RbRoot ν) (Option ν) := do
  -- `RB_EMPTY_NODE`: the word of the node is the node itself.
  if (← parentColor node) = (some node, false) then return none
  match ← child .right node with
  | some r => iterate leftRound r
  | none => iterate upRound node

end Slos.RbTree
