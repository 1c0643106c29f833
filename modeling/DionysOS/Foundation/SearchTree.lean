import Mathlib.Algebra.Order.Ring.Nat
import Mathlib.Data.BitVec
import Mathlib.Data.Tree.Basic

/-!
# Search trees

Shapes of binary search trees over an arbitrary type of cells and a key for every cell.
`Ordered` is the order of the keys, `search` the descent to a key, `attach` the insertion of a new
leaf where a search ends, and `detach` the removal of a cell with at most one child.
-/

namespace DionysOS.Foundation.SearchTree

open List BinaryTree

variable {Cell Key : Type*}

def cells : BinaryTree Cell → List Cell
  | .nil => []
  | .node cell left right => cells left ++ cell :: cells right

@[simp]
theorem cells_nil : cells (.nil : BinaryTree Cell) = [] := rfl

@[simp]
theorem cells_node (cell : Cell) (left right : BinaryTree Cell) :
    cells (.node cell left right) = cells left ++ cell :: cells right := rfl

@[simp]
theorem length_cells (shape : BinaryTree Cell) : (cells shape).length = shape.numNodes := by
  induction shape with
  | nil => rfl
  | node cell left right hleft hright =>
    simp only [cells_node, length_append, length_cons, numNodes, hleft, hright]
    omega

theorem nodup_cells_node {cell : Cell} {left right : BinaryTree Cell}
    (hnodup : (cells (.node cell left right)).Nodup) :
    (cells left).Nodup ∧ (cells right).Nodup ∧ cell ∉ cells left ∧ cell ∉ cells right ∧
      (cells left).Disjoint (cells right) := by
  rw [cells_node, nodup_append', nodup_cons] at hnodup
  obtain ⟨hleft, ⟨hcell, hright⟩, hdisj⟩ := hnodup
  obtain ⟨hnotLeft, hsides⟩ := disjoint_cons_right.mp hdisj
  exact ⟨hleft, hright, hnotLeft, hcell, hsides⟩

section Order

variable [LinearOrder Key] {key other : Cell → Key} {wanted : Key} {cell new : Cell}
  {shape left right : BinaryTree Cell}

def Ordered (key : Cell → Key) : BinaryTree Cell → Prop
  | .nil => True
  | .node cell left right =>
      (∀ lower ∈ cells left, key lower < key cell) ∧
        (∀ upper ∈ cells right, key cell < key upper) ∧ Ordered key left ∧ Ordered key right

def search (key : Cell → Key) (wanted : Key) : BinaryTree Cell → Option Cell
  | .nil => none
  | .node cell left right =>
      if wanted = key cell then some cell
      else if wanted < key cell then search key wanted left else search key wanted right

theorem search_mem (hsearch : search key wanted shape = some cell) :
    cell ∈ cells shape ∧ key cell = wanted := by
  induction shape with
  | nil => cases hsearch
  | node root left right hleft hright =>
    unfold search at hsearch
    split at hsearch
    · rename_i hkey
      cases hsearch
      exact ⟨by simp, hkey.symm⟩
    · split at hsearch
      · have h := hleft hsearch
        exact ⟨by simp [h.1], h.2⟩
      · have h := hright hsearch
        exact ⟨by simp [h.1], h.2⟩

section

variable (hordered : Ordered key shape)
include hordered

theorem Ordered.search_eq_some (hcell : cell ∈ cells shape) :
    search key (key cell) shape = some cell := by
  induction shape with
  | nil => cases hcell
  | node root left right hleft hright =>
    obtain ⟨hlower, hupper, hl, hr⟩ := hordered
    rw [cells_node, mem_append, mem_cons] at hcell
    unfold search
    rcases hcell with hmem | rfl | hmem
    · have hlt := hlower cell hmem
      rw [if_neg hlt.ne, if_pos hlt]
      exact hleft hl hmem
    · rw [if_pos rfl]
    · have hlt := hupper cell hmem
      rw [if_neg hlt.ne', if_neg hlt.not_gt]
      exact hright hr hmem

theorem Ordered.eq_of_key_eq {one two : Cell}
    (hone : one ∈ cells shape) (htwo : two ∈ cells shape) (hkey : key one = key two) :
    one = two := by
  have hsearch := hordered.search_eq_some hone
  rw [hkey, hordered.search_eq_some htwo] at hsearch
  exact (Option.some.inj hsearch).symm

theorem Ordered.search_eq_none
    (hsearch : search key wanted shape = none) : ∀ cell ∈ cells shape, key cell ≠ wanted := by
  intro cell hcell hkey
  rw [← hkey, hordered.search_eq_some hcell] at hsearch
  cases hsearch

theorem Ordered.nodup : (cells shape).Nodup := by
  induction shape with
  | nil => exact nodup_nil
  | node root left right hleft hright =>
    obtain ⟨hlower, hupper, hl, hr⟩ := hordered
    rw [cells_node, nodup_append]
    refine ⟨hleft hl, nodup_cons.mpr ⟨?_, hright hr⟩, ?_⟩
    · intro hmem
      exact (hupper root hmem).false
    · intro lower hmem upper hmem' heq
      subst heq
      rcases mem_cons.mp hmem' with rfl | hmem'
      · exact (hlower lower hmem).false
      · exact ((hlower lower hmem).trans (hupper lower hmem')).false

theorem Ordered.congr
    (hagree : ∀ cell ∈ cells shape, other cell = key cell) : Ordered other shape := by
  induction shape with
  | nil => trivial
  | node root left right hleft hright =>
    obtain ⟨hlower, hupper, hl, hr⟩ := hordered
    have hroot : other root = key root := hagree root (by simp)
    have hagreeLeft : ∀ cell ∈ cells left, other cell = key cell := fun cell hcell ↦
      hagree cell (by simp [hcell])
    have hagreeRight : ∀ cell ∈ cells right, other cell = key cell := fun cell hcell ↦
      hagree cell (by simp [hcell])
    refine ⟨?_, ?_, hleft hl hagreeLeft, hright hr hagreeRight⟩
    · intro lower hmem
      rw [hroot, hagreeLeft lower hmem]
      exact hlower lower hmem
    · intro upper hmem
      rw [hroot, hagreeRight upper hmem]
      exact hupper upper hmem

end

/-- Insert `new` as a leaf where the search for `wanted` ends. -/
def attach (key : Cell → Key) (wanted : Key) (new : Cell) : BinaryTree Cell → BinaryTree Cell
  | .nil => .node new .nil .nil
  | .node cell left right =>
      if wanted < key cell then .node cell (attach key wanted new left) right
      else .node cell left (attach key wanted new right)

/-- The cell under which `attach` puts the new leaf; `above` if the shape is empty. -/
def attachPoint (key : Cell → Key) (wanted : Key) : Cell → BinaryTree Cell → Cell
  | above, .nil => above
  | _, .node cell left right =>
      if wanted < key cell then attachPoint key wanted cell left
      else attachPoint key wanted cell right

theorem mem_attach {x : Cell} :
    x ∈ cells (attach key wanted new shape) ↔ x = new ∨ x ∈ cells shape := by
  induction shape with
  | nil => simp [attach]
  | node root left right hleft hright =>
    unfold attach
    split
    · simp only [cells_node, mem_append, mem_cons, hleft, or_assoc]
    · simp only [cells_node, mem_append, mem_cons, hright]
      tauto

theorem attach_congr (hagree : ∀ cell ∈ cells shape, other cell = key cell) (wanted : Key)
    (new : Cell) : attach other wanted new shape = attach key wanted new shape := by
  induction shape with
  | nil => rfl
  | node root left right hleft hright =>
    unfold attach
    rw [hagree root (by simp), hleft fun cell hcell ↦ hagree cell (by simp [hcell]),
      hright fun cell hcell ↦ hagree cell (by simp [hcell])]

theorem numNodes_attach (key : Cell → Key) (wanted : Key) (new : Cell) (shape : BinaryTree Cell) :
    (attach key wanted new shape).numNodes = shape.numNodes + 1 := by
  induction shape with
  | nil => rfl
  | node root left right hleft hright =>
    unfold attach
    split
    · simp only [numNodes, hleft]
      omega
    · simp only [numNodes, hright]
      omega

theorem attachPoint_mem (above : Cell) (hshape : shape ≠ .nil) :
    attachPoint key wanted above shape ∈ cells shape := by
  induction shape generalizing above with
  | nil => exact absurd rfl hshape
  | node root left right hleft hright =>
    unfold attachPoint
    split
    · by_cases hnil : left = .nil
      · subst hnil
        simp [attachPoint]
      · simp [hleft root hnil]
    · by_cases hnil : right = .nil
      · subst hnil
        simp [attachPoint]
      · simp [hright root hnil]

theorem attachPoint_eq_or_mem (key : Cell → Key) (wanted : Key) (above : Cell)
    (shape : BinaryTree Cell) : attachPoint key wanted above shape = above ∨
      attachPoint key wanted above shape ∈ cells shape := by
  by_cases hnil : shape = .nil
  · exact .inl (hnil ▸ rfl)
  · exact .inr (attachPoint_mem above hnil)

theorem Ordered.attach (hordered : Ordered key shape) (hnew : key new = wanted)
    (habsent : ∀ cell ∈ cells shape, key cell ≠ wanted) :
    Ordered key (attach key wanted new shape) := by
  induction shape with
  | nil => exact ⟨by simp, by simp, trivial, trivial⟩
  | node root left right hleft hright =>
    obtain ⟨hlower, hupper, hl, hr⟩ := hordered
    have habsentLeft : ∀ cell ∈ cells left, key cell ≠ wanted := fun cell hcell ↦
      habsent cell (by simp [hcell])
    have habsentRight : ∀ cell ∈ cells right, key cell ≠ wanted := fun cell hcell ↦
      habsent cell (by simp [hcell])
    unfold SearchTree.attach
    split
    · rename_i hlt
      refine ⟨?_, hupper, hleft hl habsentLeft, hr⟩
      intro lower hmem
      rcases mem_attach.mp hmem with rfl | hmem
      · rwa [hnew]
      · exact hlower lower hmem
    · rename_i hge
      refine ⟨hlower, ?_, hl, hright hr habsentRight⟩
      intro upper hmem
      rcases mem_attach.mp hmem with rfl | hmem
      · rw [hnew]
        exact lt_of_le_of_ne (not_lt.mp hge) (habsent root (by simp))
      · exact hupper upper hmem

/-- The only child of a cell with children `left` and `right`, one of them empty. -/
def join : BinaryTree Cell → BinaryTree Cell → BinaryTree Cell
  | .nil, right => right
  | left, _ => left

/-- Replace the cell that the search for `wanted` finds by its only child. -/
def detach (key : Cell → Key) (wanted : Key) : BinaryTree Cell → BinaryTree Cell
  | .nil => .nil
  | .node cell left right =>
      if wanted = key cell then join left right
      else if wanted < key cell then .node cell (detach key wanted left) right
      else .node cell left (detach key wanted right)

/-- The cell that the search for `wanted` finds has at most one child. -/
def AtMostOneChild (key : Cell → Key) (wanted : Key) : BinaryTree Cell → Prop
  | .nil => True
  | .node cell left right =>
      if wanted = key cell then left = .nil ∨ right = .nil
      else if wanted < key cell then AtMostOneChild key wanted left
      else AtMostOneChild key wanted right

theorem cells_join (hone : left = .nil ∨ right = .nil) :
    cells (join left right) = cells left ++ cells right := by
  rcases hone with rfl | rfl
  · rfl
  · cases left <;> simp [join]

theorem Ordered.ne_of_lt (hordered : Ordered key (.node cell left right))
    (hlt : wanted < key cell) : ∀ upper ∈ cells right, key upper ≠ wanted := by
  intro upper hmem
  exact (hlt.trans (hordered.2.1 upper hmem)).ne'

theorem Ordered.ne_of_gt (hordered : Ordered key (.node cell left right))
    (hgt : key cell < wanted) : ∀ lower ∈ cells left, key lower ≠ wanted := by
  intro lower hmem
  exact ((hordered.1 lower hmem).trans hgt).ne

theorem Ordered.cells_detach (hordered : Ordered key shape)
    (hone : AtMostOneChild key wanted shape) :
    cells (detach key wanted shape) = (cells shape).filter fun cell ↦ key cell ≠ wanted := by
  induction shape with
  | nil => rfl
  | node root left right hleft hright =>
    unfold AtMostOneChild at hone
    unfold detach
    rw [cells_node, filter_append, filter_cons]
    rcases lt_trichotomy wanted (key root) with hlt | heq | hgt
    · have hkept : (cells right).filter (fun cell ↦ key cell ≠ wanted) = cells right :=
        filter_eq_self.mpr fun cell hcell ↦ by simpa using hordered.ne_of_lt hlt cell hcell
      rw [if_neg hlt.ne, if_pos hlt] at hone ⊢
      rw [cells_node, hleft hordered.2.2.1 hone, hkept, if_pos (by simpa using hlt.ne')]
    · have hleftKept : (cells left).filter (fun cell ↦ key cell ≠ wanted) = cells left :=
        filter_eq_self.mpr fun cell hcell ↦ by
          simpa [heq] using (hordered.1 cell hcell).ne
      have hrightKept : (cells right).filter (fun cell ↦ key cell ≠ wanted) = cells right :=
        filter_eq_self.mpr fun cell hcell ↦ by
          simpa [heq] using (hordered.2.1 cell hcell).ne'
      rw [if_pos heq] at hone ⊢
      rw [cells_join hone, hleftKept, hrightKept, if_neg (by simpa using heq.symm)]
    · have hkept : (cells left).filter (fun cell ↦ key cell ≠ wanted) = cells left :=
        filter_eq_self.mpr fun cell hcell ↦ by simpa using hordered.ne_of_gt hgt cell hcell
      rw [if_neg hgt.ne', if_neg hgt.not_gt] at hone ⊢
      rw [cells_node, hright hordered.2.2.2 hone, hkept, if_pos (by simpa using hgt.ne)]

theorem Ordered.mem_detach (hordered : Ordered key shape)
    (hone : AtMostOneChild key wanted shape) {x : Cell} :
    x ∈ cells (detach key wanted shape) ↔ x ∈ cells shape ∧ key x ≠ wanted := by
  rw [hordered.cells_detach hone, mem_filter]
  simp

theorem Ordered.detach (hordered : Ordered key shape) (hone : AtMostOneChild key wanted shape) :
    Ordered key (detach key wanted shape) := by
  induction shape with
  | nil => trivial
  | node root left right hleft hright =>
    obtain ⟨hlower, hupper, hl, hr⟩ := hordered
    unfold AtMostOneChild at hone
    unfold SearchTree.detach
    split at hone
    · rw [if_pos ‹_›]
      rcases hone with rfl | rfl
      · exact hr
      · cases left <;> exact hl
    · rw [if_neg ‹_›]
      split at hone
      · rw [if_pos ‹_›]
        refine ⟨?_, hupper, hleft hl hone, hr⟩
        intro lower hmem
        exact hlower lower ((hl.mem_detach hone).mp hmem).1
      · rw [if_neg ‹_›]
        refine ⟨hlower, ?_, hl, hright hr hone⟩
        intro upper hmem
        exact hupper upper ((hr.mem_detach hone).mp hmem).1

theorem numNodes_detach (hsearch : search key wanted shape = some cell)
    (hone : AtMostOneChild key wanted shape) :
    (detach key wanted shape).numNodes + 1 = shape.numNodes := by
  induction shape with
  | nil => cases hsearch
  | node root left right hleft hright =>
    unfold AtMostOneChild at hone
    unfold search at hsearch
    unfold detach
    split at hone
    · rw [if_pos ‹_›, ← length_cells, cells_join hone, length_append, length_cells,
        length_cells, numNodes]
    · rw [if_neg ‹_›] at hsearch ⊢
      split at hone
      · rw [if_pos ‹_›] at hsearch ⊢
        have h := hleft hsearch hone
        simp only [numNodes]
        omega
      · rw [if_neg ‹_›] at hsearch ⊢
        have h := hright hsearch hone
        simp only [numNodes]
        omega

end Order

end DionysOS.Foundation.SearchTree
