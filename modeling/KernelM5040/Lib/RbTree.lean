import KernelM5040.Core.SearchTree

/-!
# Red-black trees: lib/rbtree.c

The balancing operations of the kernel's red-black trees, as they act on the
tree of nodes below `rb_root`.  A node's place is the chain of its ancestors,
so the parent pointers are the frames of the place and need no fields of their
own; the loops that climb from a node to the root recurse on it.  What a user
of the trees relies on is proved at the end: linking a node puts it at its
link position in the in-order sequence, and erasing a node takes it out.
-/

namespace KernelM5040.RbTree

open SearchTree SearchTree.Tree

inductive Colour
  | red
  | black
  deriving DecidableEq, Repr

/-- The nodes below an `rb_root`; `leaf` is the NULL child. -/
abbrev RbRoot (Entry : Type*) := SearchTree.Tree Colour Entry

/-- The `rb_parent` and `rb_link` of a place. -/
abbrev RbLink (Entry : Type*) := SearchTree.Path Colour Entry

variable {Entry : Type*}

/-- `node && rb_is_red(node)`. -/
def rbIsRed : RbRoot Entry → Bool
  | .node .red _ _ _ => true
  | _ => false

variable (node : RbRoot Entry)

def rbSetBlack : RbRoot Entry := node.retag .black

def rbSetRed : RbRoot Entry := node.retag .red

/-- `rb_insert_color`: `node` is the subtree below the red node that may have a
red parent. -/
def rbInsertColor : RbRoot Entry → RbLink Entry → RbRoot Entry
  | node, [] => rbSetBlack node
  | node, [parent] => rbSetBlack (parent.attach node)
  | node, parent :: gparent :: above =>
    if parent.tag = .black then
      rbSetBlack (plug node (parent :: gparent :: above))
    else
      match gparent with
      | .left _ gvalue uncle =>
        if rbIsRed uncle then
          rbInsertColor
            (.node .red (rbSetBlack (parent.attach node)) gvalue (rbSetBlack uncle)) above
        else
          let top := match parent with
            | .right _ _ _ => (parent.attach node).rotateLeft
            | .left _ _ _ => parent.attach node
          rbSetBlack (plug (SearchTree.Tree.node .red (rbSetBlack top) gvalue uncle).rotateRight above)
      | .right _ uncle gvalue =>
        if rbIsRed uncle then
          rbInsertColor
            (.node .red (rbSetBlack uncle) gvalue (rbSetBlack (parent.attach node))) above
        else
          let top := match parent with
            | .left _ _ _ => (parent.attach node).rotateRight
            | .right _ _ _ => parent.attach node
          rbSetBlack (plug (SearchTree.Tree.node .red uncle gvalue (rbSetBlack top)).rotateLeft above)

/-- `rb_link_node` followed by `rb_insert_color`. -/
def rbLinkNode (entry : Entry) (link : RbLink Entry) : RbRoot Entry :=
  rbInsertColor (.node .red .leaf entry .leaf) link

/-- Neither child of the sibling is red. -/
def bothBlack : RbRoot Entry → Bool
  | .node _ left _ right => !rbIsRed left && !rbIsRed right
  | .leaf => true

variable (colour : Colour)

/-- The last step of `__rb_erase_color` when the black node is a left child and
its sibling has a red child: the subtree that takes the parent's place. -/
def eraseRotateLeft (parent : Entry) : RbRoot Entry → RbRoot Entry
  | .leaf => .node .black node parent .leaf
  | .node ocolour oleft ovalue oright =>
    let other : RbRoot Entry :=
      if rbIsRed oright then .node ocolour oleft ovalue oright
      else (SearchTree.Tree.node .red (rbSetBlack oleft) ovalue oright).rotateRight
    let other : RbRoot Entry := match other with
      | .node _ left value right => .node colour left value (rbSetBlack right)
      | .leaf => .leaf
    (SearchTree.Tree.node .black node parent other).rotateLeft

/-- The mirror image of `eraseRotateLeft`. -/
def eraseRotateRight (parent : Entry) : RbRoot Entry → RbRoot Entry
  | .leaf => .node .black .leaf parent node
  | .node ocolour oleft ovalue oright =>
    let other : RbRoot Entry :=
      if rbIsRed oleft then .node ocolour oleft ovalue oright
      else (SearchTree.Tree.node .red oleft ovalue (rbSetBlack oright)).rotateLeft
    let other : RbRoot Entry := match other with
      | .node _ left value right => .node colour (rbSetBlack left) value right
      | .leaf => .leaf
    (SearchTree.Tree.node .black other parent node).rotateRight

/-- `__rb_erase_color`: the paths through `node` have one black node too few. -/
def rbEraseColor : RbRoot Entry → RbLink Entry → RbRoot Entry
  | node, [] => rbSetBlack node
  | node, .left colour parent other :: above =>
    if rbIsRed node then plug (rbSetBlack node) (.left colour parent other :: above)
    else
      match other with
      | .node .red oleft ovalue oright =>
        -- the parent turns red and goes down, with the sibling's left child beside it
        if bothBlack oleft then
          -- and the loop ends at the red parent
          plug (.node .black node parent (rbSetRed oleft))
            (.left .black ovalue oright :: above)
        else
          rbSetBlack (plug (eraseRotateLeft node .red parent oleft)
            (.left .black ovalue oright :: above))
      | other =>
        if bothBlack other then
          rbEraseColor (.node colour node parent (rbSetRed other)) above
        else
          rbSetBlack (plug (eraseRotateLeft node colour parent other) above)
  | node, .right colour other parent :: above =>
    if rbIsRed node then plug (rbSetBlack node) (.right colour other parent :: above)
    else
      match other with
      | .node .red oleft ovalue oright =>
        if bothBlack oright then
          plug (.node .black (rbSetRed oright) parent node)
            (.right .black oleft ovalue :: above)
        else
          rbSetBlack (plug (eraseRotateRight node .red parent oright)
            (.right .black oleft ovalue :: above))
      | other =>
        if bothBlack other then
          rbEraseColor (.node colour (rbSetRed other) parent node) above
        else
          rbSetBlack (plug (eraseRotateRight node colour parent other) above)

/-- The tail of `rb_erase`: `child` takes the place of a node of that colour. -/
def rbReplace (child : RbRoot Entry) (link : RbLink Entry) : RbRoot Entry :=
  if colour = .black then rbEraseColor child link else plug child link

/-- `rb_erase` of the node found at a place. -/
def rbEraseAt (left right : RbRoot Entry) (link : RbLink Entry) : RbRoot Entry :=
  match left, right with
  | .leaf, child => rbReplace colour child link
  | child, .leaf => rbReplace colour child link
  | left, right =>
    match leftmost right [] with
    | some (colour', successor, child, spine) =>
      rbReplace colour' child (spine ++ .right colour left successor :: link)
    | none => plug left link

/-- `rb_erase` of the node of an entry. -/
def rbErase [DecidableEq Entry] (entry : Entry) (root : RbRoot Entry) : RbRoot Entry :=
  match locate entry root [] with
  | some (colour, left, right, link) => rbEraseAt colour left right link
  | none => root

section Inorder

@[simp] theorem inorder_rbSetBlack : (rbSetBlack node).inorder = node.inorder := by
  simp [rbSetBlack]

@[simp] theorem inorder_rbSetRed : (rbSetRed node).inorder = node.inorder := by
  simp [rbSetRed]

theorem inorder_rbInsertColor (link : RbLink Entry) :
    (rbInsertColor node link).inorder = before link ++ (node.inorder ++ after link) := by
  fun_induction rbInsertColor node link with
  | case1 node => simp
  | case2 node parent => cases parent <;> simp [Frame.attach]
  | case3 node parent gparent above _ => rw [inorder_rbSetBlack, inorder_plug]
  | case4 node parent above _ _ _ _ _ ih | case6 node parent above _ _ _ _ _ ih =>
    rw [ih]
    cases parent <;> simp [Frame.attach]
  | case5 node parent above _ _ gvalue uncle _ top =>
    have htop : top.inorder = (parent.attach node).inorder := by
      cases parent <;> simp [top]
    rw [inorder_rbSetBlack, inorder_plug, inorder_rotateRight, inorder, inorder_rbSetBlack, htop]
    cases parent <;> simp [Frame.attach]
  | case7 node parent above _ _ uncle gvalue _ top =>
    have htop : top.inorder = (parent.attach node).inorder := by
      cases parent <;> simp [top]
    rw [inorder_rbSetBlack, inorder_plug, inorder_rotateLeft, inorder, inorder_rbSetBlack, htop]
    cases parent <;> simp [Frame.attach]

theorem inorder_rbLinkNode (entry : Entry) (link : RbLink Entry) :
    (rbLinkNode entry link).inorder = before link ++ entry :: after link := by
  rw [rbLinkNode, inorder_rbInsertColor]
  simp

section

variable (node : RbRoot Entry) (colour : Colour) (parent : Entry) (other : RbRoot Entry)

theorem inorder_eraseRotateLeft :
    (eraseRotateLeft node colour parent other).inorder =
      node.inorder ++ parent :: other.inorder := by
  cases other with
  | leaf => simp [eraseRotateLeft]
  | node ocolour oleft ovalue oright =>
    have hother : ∀ tree : RbRoot Entry,
        (match tree with
          | .node _ left value right => SearchTree.Tree.node colour left value (rbSetBlack right)
          | .leaf => .leaf).inorder = tree.inorder := by
      intro tree
      cases tree <;> simp
    simp only [eraseRotateLeft, inorder_rotateLeft, inorder, hother]
    split <;> simp

theorem inorder_eraseRotateRight :
    (eraseRotateRight node colour parent other).inorder =
      other.inorder ++ parent :: node.inorder := by
  cases other with
  | leaf => simp [eraseRotateRight]
  | node ocolour oleft ovalue oright =>
    have hother : ∀ tree : RbRoot Entry,
        (match tree with
          | .node _ left value right => SearchTree.Tree.node colour (rbSetBlack left) value right
          | .leaf => .leaf).inorder = tree.inorder := by
      intro tree
      cases tree <;> simp
    simp only [eraseRotateRight, inorder_rotateRight, inorder, hother]
    split <;> simp

end

theorem inorder_rbEraseColor (link : RbLink Entry) :
    (rbEraseColor node link).inorder = before link ++ (node.inorder ++ after link) := by
  fun_induction rbEraseColor node link <;>
    simp_all [inorder_eraseRotateLeft, inorder_eraseRotateRight]

theorem inorder_rbReplace (child : RbRoot Entry) (link : RbLink Entry) :
    (rbReplace colour child link).inorder = before link ++ (child.inorder ++ after link) := by
  unfold rbReplace
  split
  · exact inorder_rbEraseColor child link
  · exact inorder_plug child link

theorem inorder_rbEraseAt (left right : RbRoot Entry) (link : RbLink Entry) :
    (rbEraseAt colour left right link).inorder =
      before link ++ (left.inorder ++ (right.inorder ++ after link)) := by
  cases left with
  | leaf => simp [rbEraseAt, inorder_rbReplace]
  | node tag left' value' right' =>
    cases right with
    | leaf => simp [rbEraseAt, inorder_rbReplace]
    | node rtag rleft rvalue rright =>
      obtain ⟨colour', successor, child, spine, heq, hbefore, hafter⟩ :=
        exists_leftmost rtag rleft rvalue rright []
      have hright : (SearchTree.Tree.node rtag rleft rvalue rright).inorder =
          successor :: (child.inorder ++ after spine) := by
        rw [hafter, after, List.append_nil]
      simp only [rbEraseAt, heq, inorder_rbReplace, before_append, after_append, hbefore, hright]
      simp

/-- Erasing a node takes its entry out of the sequence and moves no other. -/
theorem inorder_rbErase [DecidableEq Entry] (entry : Entry) (root : RbRoot Entry) :
    (rbErase entry root).inorder = root.inorder.erase entry := by
  have hlocated := located entry root []
  unfold rbErase
  generalize locate entry root [] = found at hlocated ⊢
  cases hlocated with
  | absent habsent => exact (List.erase_of_not_mem habsent).symm
  | found colour left right link front back hfront hinorder hbefore hafter =>
    have hsplit : root.inorder = (front ++ left.inorder) ++ entry :: (right.inorder ++ back) := by
      rw [hinorder, List.append_assoc]
    rw [inorder_rbEraseAt, hsplit, List.erase_append_right _ hfront, List.erase_cons_head,
      hbefore, hafter]
    simp

end Inorder

end KernelM5040.RbTree
