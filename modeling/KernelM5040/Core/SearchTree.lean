import Mathlib.Data.List.Basic
import Mathlib.Tactic.Common

/-!
# Binary trees with a tag per node, and places in them

A balanced tree keeps bookkeeping data (a colour, a height) beside the values,
and its operations work at a place deep in the tree and then walk back up.
The tree below carries one tag per node, and a place is the list of frames on
the way from it to the root.  What a tree stands for is its in-order sequence:
rotations and retagging keep it, and a place cuts it in the values before and
the values after.
-/

namespace KernelM5040.SearchTree

open List

/-- A binary tree whose nodes hold a tag and a value. -/
inductive Tree (Tag Value : Type*)
  | leaf
  | node (tag : Tag) (left : Tree Tag Value) (value : Value) (right : Tree Tag Value)

/-- One node on the way down: which side was taken, and what was left beside. -/
inductive Frame (Tag Value : Type*)
  | left (tag : Tag) (value : Value) (beside : Tree Tag Value)
  | right (tag : Tag) (beside : Tree Tag Value) (value : Value)

/-- A place in a tree, its nearest ancestor first. -/
abbrev Path (Tag Value : Type*) := List (Frame Tag Value)

variable {Tag Value : Type*} (tree : Tree Tag Value)

namespace Tree

/-- The values from left to right. -/
def inorder : Tree Tag Value → List Value
  | leaf => []
  | node _ left value right => left.inorder ++ value :: right.inorder

def retag (tag : Tag) : Tree Tag Value → Tree Tag Value
  | leaf => leaf
  | node _ left value right => node tag left value right

def rotateLeft : Tree Tag Value → Tree Tag Value
  | node tag left value (node tag' left' value' right') =>
    node tag' (node tag left value left') value' right'
  | tree => tree

def rotateRight : Tree Tag Value → Tree Tag Value
  | node tag (node tag' left' value' right') value right =>
    node tag' left' value' (node tag right' value right)
  | tree => tree

attribute [simp] inorder

@[simp] theorem inorder_retag (tag : Tag) (tree : Tree Tag Value) :
    (tree.retag tag).inorder = tree.inorder := by
  cases tree <;> rfl

@[simp] theorem inorder_rotateLeft : tree.rotateLeft.inorder = tree.inorder := by
  unfold rotateLeft
  split <;> simp

@[simp] theorem inorder_rotateRight : tree.rotateRight.inorder = tree.inorder := by
  unfold rotateRight
  split <;> simp

end Tree

/-- Put a subtree back under its parent. -/
def Frame.attach : Frame Tag Value → Tree Tag Value
  | .left tag value beside => .node tag tree value beside
  | .right tag beside value => .node tag beside value tree

/-- The parent's own value. -/
def Frame.value : Frame Tag Value → Value
  | .left _ value _ => value
  | .right _ _ value => value

/-- The parent's tag. -/
def Frame.tag : Frame Tag Value → Tag
  | .left tag _ _ => tag
  | .right tag _ _ => tag

/-- Put a subtree back at a place. -/
def plug : Tree Tag Value → Path Tag Value → Tree Tag Value
  | tree, [] => tree
  | tree, frame :: path => plug (frame.attach tree) path

/-- The values of the tree that come before a place. -/
def before : Path Tag Value → List Value
  | [] => []
  | .left _ _ _ :: path => before path
  | .right _ left value :: path => before path ++ (left.inorder ++ [value])

/-- The values of the tree that come after a place. -/
def after : Path Tag Value → List Value
  | [] => []
  | .left _ value right :: path => value :: right.inorder ++ after path
  | .right _ _ _ :: path => after path

attribute [simp] before after

@[simp] theorem inorder_plug (path : Path Tag Value) :
    (plug tree path).inorder = before path ++ (tree.inorder ++ after path) := by
  induction path generalizing tree with
  | nil => simp [plug]
  | cons frame path ih =>
    rw [plug, ih]
    cases frame <;> simp [Frame.attach]

theorem before_append (path path' : Path Tag Value) :
    before (path ++ path') = before path' ++ before path := by
  induction path with
  | nil => simp
  | cons frame path ih => cases frame <;> simp [ih]

theorem after_append (path path' : Path Tag Value) :
    after (path ++ path') = after path ++ after path' := by
  induction path with
  | nil => simp
  | cons frame path ih => cases frame <;> simp [ih]

/-- The first node of a tree in order: its tag, value, right subtree and place. -/
def leftmost : Tree Tag Value → Path Tag Value →
    Option (Tag × Value × Tree Tag Value × Path Tag Value)
  | .leaf, _ => none
  | .node tag .leaf value right, path => some (tag, value, right, path)
  | .node tag left value right, path => leftmost left (.left tag value right :: path)

theorem exists_leftmost (tag : Tag) (left : Tree Tag Value) (value : Value)
    (right : Tree Tag Value) (path : Path Tag Value) :
    ∃ tag' first child place,
      leftmost (.node tag left value right) path = some (tag', first, child, place) ∧
      before place = before path ∧
      first :: (child.inorder ++ after place) =
        (Tree.node tag left value right).inorder ++ after path := by
  induction left generalizing tag value right path with
  | leaf => exact ⟨tag, value, right, path, rfl, rfl, by simp⟩
  | node tag' left' value' right' ihleft _ =>
    obtain ⟨found, first, child, place, heq, hbefore, hafter⟩ :=
      ihleft tag' value' right' (.left tag value right :: path)
    refine ⟨found, first, child, place, heq, hbefore, ?_⟩
    rw [hafter]
    simp

/-- The node that holds a value, the leftmost one if there are several: its
tag, its subtrees and its place. -/
def locate [DecidableEq Value] (target : Value) : Tree Tag Value → Path Tag Value →
    Option (Tag × Tree Tag Value × Tree Tag Value × Path Tag Value)
  | .leaf, _ => none
  | .node tag left value right, path =>
    match locate target left (.left tag value right :: path) with
    | some found => some found
    | none =>
      if value = target then some (tag, left, right, path)
      else locate target right (.right tag left value :: path)

/-- What a search for a value finds: nothing if it is not there, and otherwise
a node that takes part in the sequence at the first place of the value. -/
inductive Located (target : Value) (tree : Tree Tag Value) (path : Path Tag Value) :
    Option (Tag × Tree Tag Value × Tree Tag Value × Path Tag Value) → Prop
  | absent (habsent : target ∉ tree.inorder) : Located target tree path none
  | found (tag : Tag) (left right : Tree Tag Value) (place : Path Tag Value)
      (front back : List Value) (hfront : target ∉ front ++ left.inorder)
      (hinorder : tree.inorder = front ++ (left.inorder ++ target :: (right.inorder ++ back)))
      (hbefore : before place = before path ++ front)
      (hafter : after place = back ++ after path) :
      Located target tree path (some (tag, left, right, place))

theorem located [DecidableEq Value] (target : Value) (tree : Tree Tag Value)
    (path : Path Tag Value) : Located target tree path (locate target tree path) := by
  induction tree generalizing path with
  | leaf => exact .absent (by simp)
  | node tag left value right ihleft ihright =>
    have hleft := ihleft (.left tag value right :: path)
    rw [locate]
    generalize locate target left (.left tag value right :: path) = found at hleft ⊢
    cases hleft with
    | found tag' left' right' place front back hfront hinorder hbefore hafter =>
      refine .found tag' left' right' place front (back ++ value :: right.inorder) hfront ?_
        hbefore ?_
      · simp [hinorder]
      · simp [hafter]
    | absent habsent =>
      by_cases hvalue : value = target
      · simp only [if_pos hvalue]
        subst hvalue
        exact .found tag left right path [] [] (by simpa using habsent) (by simp) (by simp)
          (by simp)
      simp only [if_neg hvalue]
      have hright := ihright (.right tag left value :: path)
      generalize locate target right (.right tag left value :: path) = found at hright ⊢
      cases hright with
      | absent habsent' =>
        refine .absent ?_
        simp only [Tree.inorder, mem_append, mem_cons, not_or]
        exact ⟨habsent, fun heq => hvalue heq.symm, habsent'⟩
      | found tag' left' right' place front back hfront hinorder hbefore hafter =>
        refine .found tag' left' right' place (left.inorder ++ value :: front) back ?_ ?_ ?_ hafter
        · simp only [append_assoc, cons_append, mem_append, mem_cons, not_or] at hfront ⊢
          exact ⟨habsent, fun heq => hvalue heq.symm, hfront⟩
        · simp [hinorder]
        · simp [hbefore]

end KernelM5040.SearchTree
