import DionysOS.Foundation.LinkedTree

/-!
# Traversal of linked trees with a stack

A stack of cells stands for the trees below them. `Stacked` relates such a stack to the cells
that are still to be visited, in preorder: visiting the top cell and pushing its right and then
its left child moves the stack to the one of the remaining cells.
-/

namespace DionysOS.Foundation.LinkedTree

open Foundation.SearchTree List

variable {Cell : Type*}

/-- The cells of a shape, every cell before the cells below it and left before right. -/
def preorder : BinaryTree Cell → List Cell
  | .nil => []
  | .node cell left right => cell :: (preorder left ++ preorder right)

theorem preorder_perm_cells (shape : BinaryTree Cell) : (preorder shape).Perm (cells shape) := by
  induction shape with
  | nil => exact Perm.nil
  | node cell left right ihl ihr =>
    calc cell :: (preorder left ++ preorder right)
      _ ~ cell :: (cells left ++ cells right) := (ihl.append ihr).cons cell
      _ ~ cells left ++ cell :: cells right := perm_middle.symm

section Stack

variable {links : Links Cell} {null above link cell : Cell}
  {shape : BinaryTree Cell} {stack order : List Cell}

/-- The trees below the cells of the stack hold the cells of `order`, in the order of a
traversal. -/
inductive Stacked (links : Links Cell) (null : Cell) : List Cell → List Cell → Prop where
  | nil : Stacked links null [] []
  | push {above cell : Cell} {shape : BinaryTree Cell} {stack order : List Cell}
      (hlinked : Linked links null above cell shape) (hcell : cell ≠ null)
      (hstack : Stacked links null stack order) :
      Stacked links null (cell :: stack) (preorder shape ++ order)

theorem Stacked.length_le (hstack : Stacked links null stack order) :
    stack.length ≤ order.length := by
  induction hstack with
  | nil => exact le_rfl
  | @push above cell shape stack order hlinked hcell _ ih =>
    cases shape with
    | nil => exact absurd hlinked hcell
    | node root left right =>
      simp only [preorder, cons_append, length_cons, length_append]
      omega

variable [DecidableEq Cell]

def pushLink (null link : Cell) (stack : List Cell) : List Cell :=
  if link = null then stack else link :: stack

theorem length_pushLink_le (null link : Cell) (stack : List Cell) :
    (pushLink null link stack).length ≤ stack.length + 1 := by
  unfold pushLink
  split
  · exact Nat.le_succ _
  · exact le_rfl

theorem le_length_pushLink (null link : Cell) (stack : List Cell) :
    stack.length ≤ (pushLink null link stack).length := by
  unfold pushLink
  split
  · exact le_rfl
  · exact Nat.le_succ _

theorem Stacked.pushLink (hstack : Stacked links null stack order)
    (hlinked : Linked links null above link shape) :
    Stacked links null (pushLink null link stack) (preorder shape ++ order) := by
  unfold LinkedTree.pushLink
  by_cases hlink : link = null
  · rw [if_pos hlink, hlinked.link_eq_null.mp hlink]
    exact hstack
  · rw [if_neg hlink]
    exact hstack.push hlinked hlink

theorem Stacked.visit (hstack : Stacked links null (cell :: stack) order) :
    cell ≠ null ∧ ∃ rest, order = cell :: rest ∧ Stacked links null
      (LinkedTree.pushLink null (links.left cell)
        (LinkedTree.pushLink null (links.right cell) stack)) rest := by
  cases hstack with
  | @push above _ shape _ order hlinked hcell hstack =>
    cases shape with
    | nil => exact absurd hlinked hcell
    | node root left right =>
      obtain ⟨rfl, -, -, hleft, hright⟩ := hlinked
      refine ⟨hcell, preorder left ++ (preorder right ++ order), ?_, ?_⟩
      · simp [preorder]
      · exact (hstack.pushLink hright).pushLink hleft

end Stack

end DionysOS.Foundation.LinkedTree
