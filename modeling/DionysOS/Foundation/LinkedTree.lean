import DionysOS.Foundation.SearchTree

/-!
# Search trees in linked memory

Every cell has a left, a right and a parent link, and `Linked` says that these links spell a shape.
The bridge from links to shapes is local: `Linked.attach` and `Linked.detach` say which few links
have to change for the shape to change as a whole. The links of the removed cell itself may then
be anything.
-/

namespace DionysOS.Foundation.LinkedTree

open SearchTree List

variable {Cell Key : Type*}

structure Links (Cell : Type*) where
  left : Cell → Cell
  right : Cell → Cell
  parent : Cell → Cell

/-- Both sets of links agree at a cell. -/
def SameAt (links links' : Links Cell) (cell : Cell) : Prop :=
  links'.left cell = links.left cell ∧ links'.right cell = links.right cell ∧
    links'.parent cell = links.parent cell

/-- Reached from `above` through `link`, the links spell the shape. -/
def Linked (links : Links Cell) (null : Cell) : Cell → Cell → BinaryTree Cell → Prop
  | _, link, .nil => link = null
  | above, link, .node cell left right =>
      link = cell ∧ cell ≠ null ∧ links.parent cell = above ∧
        Linked links null cell (links.left cell) left ∧
        Linked links null cell (links.right cell) right

instance Linked.decidable [DecidableEq Cell] (links : Links Cell) (null : Cell) :
    ∀ above link shape, Decidable (Linked links null above link shape)
  | _, link, .nil => inferInstanceAs (Decidable (link = null))
  | above, link, .node cell left right =>
      have := Linked.decidable links null cell (links.left cell) left
      have := Linked.decidable links null cell (links.right cell) right
      inferInstanceAs (Decidable (link = cell ∧ cell ≠ null ∧ links.parent cell = above ∧
        Linked links null cell (links.left cell) left ∧
        Linked links null cell (links.right cell) right))

section Linked

variable {links links' : Links Cell} {null above link cell new : Cell}
  {shape left right : BinaryTree Cell}

section

variable (hlinked : Linked links null above link shape)
include hlinked

theorem Linked.congr (hsame : ∀ cell ∈ cells shape, SameAt links links' cell) :
    Linked links' null above link shape := by
  induction shape generalizing above link with
  | nil => exact hlinked
  | node root left right ihl ihr =>
    obtain ⟨hlink, hne, habove, hl, hr⟩ := hlinked
    obtain ⟨hleft, hright, hpar⟩ := hsame root (by simp)
    refine ⟨hlink, hne, hpar.trans habove, ?_, ?_⟩
    · rw [hleft]
      exact ihl hl fun cell hcell ↦ hsame cell (by simp [hcell])
    · rw [hright]
      exact ihr hr fun cell hcell ↦ hsame cell (by simp [hcell])

theorem Linked.ne_null :
    ∀ cell ∈ cells shape, cell ≠ null := by
  induction shape generalizing above link with
  | nil => simp
  | node root left right ihl ihr =>
    obtain ⟨-, hne, -, hl, hr⟩ := hlinked
    intro cell hcell
    rw [cells_node, mem_append, mem_cons] at hcell
    rcases hcell with hmem | rfl | hmem
    · exact ihl hl cell hmem
    · exact hne
    · exact ihr hr cell hmem

theorem Linked.link_eq_null :
    link = null ↔ shape = .nil := by
  cases shape with
  | nil => exact iff_of_true hlinked rfl
  | node root left right =>
    simp only [reduceCtorEq, iff_false]
    rw [hlinked.1]
    exact hlinked.2.1

theorem Linked.unique {other : BinaryTree Cell}
    (hother : Linked links null above link other) : shape = other := by
  induction shape generalizing above link other with
  | nil => exact (hother.link_eq_null.mp hlinked).symm
  | node root left right ihl ihr =>
    cases other with
    | nil => exact absurd (hlinked.1.symm.trans hother) hlinked.2.1
    | node root' left' right' =>
      obtain ⟨rfl, -, -, hl, hr⟩ := hlinked
      obtain ⟨rfl, -, -, hl', hr'⟩ := hother
      rw [ihl hl hl', ihr hr hr']

theorem Linked.parent_of_link
    (hcell : cell ∈ cells shape) (hlink : link = cell) : links.parent cell = above := by
  cases shape with
  | nil => cases hcell
  | node root left right =>
    have hroot : root = cell := hlinked.1.symm.trans hlink
    exact hroot ▸ hlinked.2.2.1

theorem Linked.parent_mem
    (hcell : cell ∈ cells shape) (hne : link ≠ cell) : links.parent cell ∈ cells shape := by
  induction shape generalizing above link with
  | nil => cases hcell
  | node root left right ihl ihr =>
    obtain ⟨rfl, -, -, hl, hr⟩ := hlinked
    rw [cells_node, mem_append, mem_cons] at hcell
    rw [cells_node, mem_append, mem_cons]
    rcases hcell with hmem | rfl | hmem
    · by_cases hlink : links.left link = cell
      · exact .inr (.inl (hl.parent_of_link hmem hlink))
      · exact .inl (ihl hl hmem hlink)
    · exact absurd rfl hne
    · by_cases hlink : links.right link = cell
      · exact .inr (.inl (hr.parent_of_link hmem hlink))
      · exact .inr (.inr (ihr hr hmem hlink))

theorem Linked.link_mem :
    link = null ∨ link ∈ cells shape := by
  cases shape with
  | nil => exact .inl hlinked
  | node root left right =>
    right
    rw [hlinked.1]
    simp

theorem Linked.child_mem (hcell : cell ∈ cells shape) :
    (links.left cell = null ∨ links.left cell ∈ cells shape) ∧
      (links.right cell = null ∨ links.right cell ∈ cells shape) := by
  induction shape generalizing above link with
  | nil => cases hcell
  | node root left right ihl ihr =>
    obtain ⟨rfl, -, -, hl, hr⟩ := hlinked
    have hinLeft {x : Cell} (h : x = null ∨ x ∈ cells left) :
        x = null ∨ x ∈ cells (.node link left right) := h.imp_right fun hmem ↦ by simp [hmem]
    have hinRight {x : Cell} (h : x = null ∨ x ∈ cells right) :
        x = null ∨ x ∈ cells (.node link left right) := h.imp_right fun hmem ↦ by simp [hmem]
    rw [cells_node, mem_append, mem_cons] at hcell
    rcases hcell with hmem | rfl | hmem
    · exact ⟨hinLeft (ihl hl hmem).1, hinLeft (ihl hl hmem).2⟩
    · exact ⟨hinLeft hl.link_mem, hinRight hr.link_mem⟩
    · exact ⟨hinRight (ihr hr hmem).1, hinRight (ihr hr hmem).2⟩

/-- The links of a cell lead away from it, and a child is not the parent. -/
structure Apart (links : Links Cell) (null cell : Cell) : Prop where
  parent : links.parent cell ≠ cell
  left : links.left cell ≠ cell
  right : links.right cell ≠ cell
  leftParent : links.left cell ≠ null → links.left cell ≠ links.parent cell
  rightParent : links.right cell ≠ null → links.right cell ≠ links.parent cell
  children : links.left cell ≠ null → links.left cell ≠ links.right cell

theorem Linked.apart
    (hnodup : (cells shape).Nodup) (habove : above ∉ cells shape) (hcell : cell ∈ cells shape) :
    Apart links null cell := by
  induction shape generalizing above link with
  | nil => cases hcell
  | node root left right ihl ihr =>
    obtain ⟨rfl, hroot, hpar, hl, hr⟩ := hlinked
    obtain ⟨hnodupLeft, hnodupRight, hrootLeft, hrootRight, hdisj⟩ := nodup_cells_node hnodup
    rw [cells_node, mem_append, mem_cons] at hcell
    rcases hcell with hmem | rfl | hmem
    · exact ihl hl hnodupLeft hrootLeft hmem
    · have haway {target : Cell} {sub : BinaryTree Cell} (hsub : target = null ∨ target ∈ cells sub)
          (hnotMem : cell ∉ cells sub) : target ≠ cell := by
        rintro rfl
        exact hsub.elim hroot hnotMem
      refine ⟨?_, haway hl.link_mem hrootLeft, haway hr.link_mem hrootRight, ?_, ?_, ?_⟩
      · rw [hpar]
        rintro rfl
        exact habove (by simp)
      · intro hne h
        refine habove ?_
        rw [← hpar, ← h]
        simp [hl.link_mem.resolve_left hne]
      · intro hne h
        refine habove ?_
        rw [← hpar, ← h]
        simp [hr.link_mem.resolve_left hne]
      · intro hne h
        have hleft := hl.link_mem.resolve_left hne
        have hright := hr.link_mem.resolve_left (h ▸ hne)
        exact hdisj hleft (h ▸ hright)
    · exact ihr hr hnodupRight hrootRight hmem

variable [LinearOrder Key] {key : Cell → Key} {wanted : Key}

/-- **Descent.** A loop that compares the wanted key with the current cell's, stops where they
are equal or where there is no child to go on to, and otherwise goes on to that child, does what
the search in the shape says. -/
theorem Linked.descend [DecidableEq Cell] {Result : Type*} (loop : ℕ → Cell → Result)
    (found ended : Cell → Result) (hloop : ∀ fuel, ∀ cell ∈ cells shape, loop (fuel + 1) cell =
      if wanted = key cell then found cell
      else if wanted < key cell then
        if links.left cell = null then ended cell else loop fuel (links.left cell)
      else
        if links.right cell = null then ended cell else loop fuel (links.right cell))
    (hshape : shape ≠ .nil) {fuel : ℕ} (hfuel : shape.numNodes ≤ fuel) :
    loop fuel link = (search key wanted shape).elim (ended (attachPoint key wanted above shape))
      found := by
  induction shape generalizing fuel above link with
  | nil => exact absurd rfl hshape
  | node root left right hleft hright =>
    obtain ⟨rfl, -, -, hl, hr⟩ := hlinked
    simp only [BinaryTree.numNodes] at hfuel
    obtain ⟨fuel, rfl⟩ : ∃ k, fuel = k + 1 := ⟨fuel - 1, by omega⟩
    rw [hloop fuel link (by simp)]
    simp only [search, attachPoint]
    split
    · rfl
    split
    · by_cases hnil : left = .nil
      · rw [if_pos (hl.link_eq_null.mpr hnil), hnil]
        rfl
      · rw [if_neg fun h ↦ hnil (hl.link_eq_null.mp h)]
        exact hleft hl (fun fuel cell hcell ↦ hloop fuel cell (by simp [hcell])) hnil (by omega)
    · by_cases hnil : right = .nil
      · rw [if_pos (hr.link_eq_null.mpr hnil), hnil]
        rfl
      · rw [if_neg fun h ↦ hnil (hr.link_eq_null.mp h)]
        exact hright hr (fun fuel cell hcell ↦ hloop fuel cell (by simp [hcell])) hnil (by omega)

theorem Linked.atMostOneChild (hsearch : search key wanted shape = some cell)
    (hone : links.left cell = null ∨ links.right cell = null) : AtMostOneChild key wanted shape := by
  induction shape generalizing above link with
  | nil => trivial
  | node root left right ihl ihr =>
    obtain ⟨-, -, -, hl, hr⟩ := hlinked
    unfold search at hsearch
    unfold AtMostOneChild
    split
    · rename_i heq
      rw [if_pos heq] at hsearch
      cases hsearch
      exact hone.imp hl.link_eq_null.mp hr.link_eq_null.mp
    · rename_i hne
      rw [if_neg hne] at hsearch
      split
      · rename_i hlt
        rw [if_pos hlt] at hsearch
        exact ihl hl hsearch
      · rename_i hge
        rw [if_neg hge] at hsearch
        exact ihr hr hsearch

/-- The links after `new` was put under `point`, on the side of the wanted key. -/
structure Attached (key : Cell → Key) (wanted : Key) (links links' : Links Cell)
    (null point new : Cell) : Prop where
  elsewhere : ∀ cell, cell ≠ new → cell ≠ point → SameAt links links' cell
  pointLeft : links'.left point = if wanted < key point then new else links.left point
  pointRight : links'.right point = if wanted < key point then links.right point else new
  pointParent : links'.parent point = links.parent point
  newLeft : links'.left new = null
  newRight : links'.right new = null
  newParent : links'.parent new = point

/-- The link into a shape to which `new` was attached. -/
def attachLink (new link : Cell) : BinaryTree Cell → Cell
  | .nil => new
  | .node _ _ _ => link

theorem Linked.attach_elsewhere {point : Cell}
    (hattached : Attached key wanted links links' null point new) (hnew : new ∉ cells shape)
    (hpoint : point ∉ cells shape) : Linked links' null above link shape :=
  hlinked.congr fun cell hcell ↦ hattached.elsewhere cell
    (ne_of_mem_of_not_mem hcell hnew) (ne_of_mem_of_not_mem hcell hpoint)

omit hlinked in
theorem Attached.links_above
    (hattached : Attached key wanted links links' null (attachPoint key wanted link shape) new)
    (hnew : link ≠ new) (hlink : link ∉ cells shape) :
    links'.parent link = links.parent link ∧
      links'.left link =
        (if wanted < key link then attachLink new (links.left link) shape else links.left link) ∧
      links'.right link =
        if wanted < key link then links.right link else attachLink new (links.right link) shape := by
  cases shape with
  | nil => exact ⟨hattached.pointParent, hattached.pointLeft, hattached.pointRight⟩
  | node root left right =>
    have hne : link ≠ attachPoint key wanted link (.node root left right) := fun h ↦
      hlink (h ▸ attachPoint_mem link (by simp))
    obtain ⟨hleft, hright, hpar⟩ := hattached.elsewhere link hnew hne
    exact ⟨hpar, by simp [hleft, attachLink], by simp [hright, attachLink]⟩

theorem Linked.attach (hnodup : (cells shape).Nodup) (hnew : new ∉ cells shape) (hne : new ≠ null)
    (hattached : Attached key wanted links links' null (attachPoint key wanted above shape) new) :
    Linked links' null above (attachLink new link shape) (attach key wanted new shape) := by
  induction shape generalizing above link with
  | nil => exact ⟨rfl, hne, hattached.newParent, hattached.newLeft, hattached.newRight⟩
  | node root left right ihl ihr =>
    obtain ⟨rfl, hroot, habove, hl, hr⟩ := hlinked
    obtain ⟨hnodupLeft, hnodupRight, hrootLeft, hrootRight, hdisj⟩ := nodup_cells_node hnodup
    have hnewRoot : link ≠ new := fun h ↦ hnew (by simp [h])
    have hnewLeft : new ∉ cells left := fun h ↦ hnew (by simp [h])
    have hnewRight : new ∉ cells right := fun h ↦ hnew (by simp [h])
    unfold attachPoint at hattached
    unfold SearchTree.attach
    split at hattached
    · rename_i hlt
      obtain ⟨hpar, hleft, hright⟩ := hattached.links_above hnewRoot hrootLeft
      rw [if_pos hlt] at hleft hright ⊢
      refine ⟨rfl, hroot, hpar.trans habove, ?_, ?_⟩
      · rw [hleft]
        exact ihl hl hnodupLeft hnewLeft hattached
      · rw [hright]
        refine hr.attach_elsewhere hattached hnewRight ?_
        rcases attachPoint_eq_or_mem key wanted link left with h | h
        · rwa [h]
        · exact fun hmem ↦ hdisj h hmem
    · rename_i hge
      obtain ⟨hpar, hleft, hright⟩ := hattached.links_above hnewRoot hrootRight
      rw [if_neg hge] at hleft hright ⊢
      refine ⟨rfl, hroot, hpar.trans habove, ?_, ?_⟩
      · rw [hleft]
        refine hl.attach_elsewhere hattached hnewLeft ?_
        rcases attachPoint_eq_or_mem key wanted link right with h | h
        · rwa [h]
        · exact fun hmem ↦ hdisj hmem h
      · rw [hright]
        exact ihr hr hnodupRight hnewRight hattached

theorem Linked.moveUp {top : Cell} (hnodup : (cells shape).Nodup)
    (hleft : link ≠ null → links'.left link = links.left link)
    (hright : link ≠ null → links'.right link = links.right link)
    (hpar : link ≠ null → links'.parent link = top)
    (hsame : ∀ cell ∈ cells shape, cell ≠ link → SameAt links links' cell) :
    Linked links' null top link shape := by
  cases shape with
  | nil => exact hlinked
  | node root left right =>
    obtain ⟨rfl, hroot, -, hl, hr⟩ := hlinked
    obtain ⟨-, -, hrootLeft, hrootRight, -⟩ := nodup_cells_node hnodup
    refine ⟨rfl, hroot, hpar hroot, ?_, ?_⟩
    · rw [hleft hroot]
      exact hl.congr fun cell hcell ↦
        hsame cell (by simp [hcell]) (ne_of_mem_of_not_mem hcell hrootLeft)
    · rw [hright hroot]
      exact hr.congr fun cell hcell ↦
        hsame cell (by simp [hcell]) (ne_of_mem_of_not_mem hcell hrootRight)

variable [DecidableEq Cell]

def onlyChild (links : Links Cell) (null cell : Cell) : Cell :=
  if links.left cell = null then links.right cell else links.left cell

theorem Linked.onlyChild_mem (hcell : cell ∈ cells shape) :
    onlyChild links null cell = null ∨ onlyChild links null cell ∈ cells shape := by
  have hchild := hlinked.child_mem hcell
  unfold onlyChild
  split
  · exact hchild.2
  · exact hchild.1

/-- The links after `cell` was bypassed: its parent leads to `child` and back. -/
structure Detached (links links' : Links Cell) (null cell child : Cell) : Prop where
  elsewhere : ∀ other, other ≠ cell → other ≠ links.parent cell → other ≠ child →
    SameAt links links' other
  pointLeft : links'.left (links.parent cell) =
    if links.left (links.parent cell) = cell then child else links.left (links.parent cell)
  pointRight : links'.right (links.parent cell) =
    if links.left (links.parent cell) = cell then links.right (links.parent cell) else child
  pointParent : links'.parent (links.parent cell) = links.parent (links.parent cell)
  childLeft : child ≠ null → links'.left child = links.left child
  childRight : child ≠ null → links'.right child = links.right child
  childParent : child ≠ null → links'.parent child = links.parent cell

omit hlinked in
theorem Linked.detach_root (hlinked : Linked links null above cell (.node cell left right))
    (hnodup : (cells (.node cell left right)).Nodup) (habove : above ∉ cells (.node cell left right))
    (hone : left = .nil ∨ right = .nil)
    (hdetached : Detached links links' null cell (onlyChild links null cell)) :
    Linked links' null above (onlyChild links null cell) (join left right) := by
  obtain ⟨-, -, hpar, hl, hr⟩ := hlinked
  obtain ⟨hnodupLeft, hnodupRight, hcellLeft, hcellRight, -⟩ := nodup_cells_node hnodup
  have hsame : ∀ other ∈ cells left ++ cells right, other ≠ onlyChild links null cell →
      SameAt links links' other := by
    intro other hother hchild
    refine hdetached.elsewhere other ?_ ?_ hchild
    · rintro rfl
      rcases mem_append.mp hother with h | h
      · exact hcellLeft h
      · exact hcellRight h
    · rw [hpar]
      rintro rfl
      refine habove ?_
      rcases mem_append.mp hother with h | h <;> simp [h]
  have hchildParent : onlyChild links null cell ≠ null →
      links'.parent (onlyChild links null cell) = above := fun h ↦
    (hdetached.childParent h).trans hpar
  by_cases hnil : left = .nil
  · subst hnil
    have hchild : onlyChild links null cell = links.right cell := if_pos hl
    rw [hchild] at hsame hchildParent ⊢
    exact hr.moveUp hnodupRight (hchild ▸ hdetached.childLeft) (hchild ▸ hdetached.childRight)
      hchildParent (fun other hother ↦ hsame other (by simpa using hother))
  · obtain rfl : right = .nil := hone.resolve_left hnil
    have hchild : onlyChild links null cell = links.left cell :=
      if_neg fun h ↦ hnil (hl.link_eq_null.mp h)
    have hjoin : join left .nil = left := by cases left <;> rfl
    rw [hchild] at hsame hchildParent ⊢
    rw [hjoin]
    exact hl.moveUp hnodupLeft (hchild ▸ hdetached.childLeft) (hchild ▸ hdetached.childRight)
      hchildParent (fun other hother ↦ hsame other (by simpa using hother))

/-- Outside the subtree that holds `cell`, nothing changes but the root above it, and that only
if `cell` is the root's child. -/
theorem Linked.sameAt_outside (hcell : cell ∈ cells shape)
    (hdetached : Detached links links' null cell (onlyChild links null cell)) {other : Cell}
    (hother : other ∉ cells shape) (hne : other ≠ above ∨ link ≠ cell) (hnonnull : other ≠ null) :
    SameAt links links' other := by
  refine hdetached.elsewhere other (fun h ↦ hother (h ▸ hcell)) ?_ ?_
  · intro h
    by_cases hlink : link = cell
    · rcases hne with hne | hne
      · exact hne (h.trans (hlinked.parent_of_link hcell hlink))
      · exact hne hlink
    · exact hother (h ▸ hlinked.parent_mem hcell hlink)
  · intro h
    rcases hlinked.onlyChild_mem hcell with hnull | hmem
    · exact hnonnull (h.trans hnull)
    · exact hother (h ▸ hmem)

/-- The link into a shape from which `cell` was detached. -/
def detachLink (cell child link : Cell) : Cell := if link = cell then child else link

theorem Linked.detach (hordered : Ordered key shape) (habove : above ∉ cells shape)
    (hsearch : search key wanted shape = some cell) (hone : AtMostOneChild key wanted shape)
    (hdetached : Detached links links' null cell (onlyChild links null cell)) :
    Linked links' null above (detachLink cell (onlyChild links null cell) link)
      (detach key wanted shape) := by
  induction shape generalizing above link with
  | nil => cases hsearch
  | node root left right ihl ihr =>
    have hnodup := hordered.nodup
    unfold search at hsearch
    unfold AtMostOneChild at hone
    unfold detach
    by_cases heq : wanted = key root
    · rw [if_pos heq] at hsearch hone ⊢
      obtain rfl : root = cell := Option.some.inj hsearch
      have hlink := hlinked.1
      subst hlink
      rw [detachLink, if_pos rfl]
      exact hlinked.detach_root hnodup habove hone hdetached
    · rw [if_neg heq] at hsearch hone ⊢
      obtain ⟨rfl, hroot, hpar, hl, hr⟩ := hlinked
      obtain ⟨-, -, hrootLeft, hrootRight, hdisj⟩ := nodup_cells_node hnodup
      split at hsearch
      · rename_i hlt
        rw [if_pos hlt] at hone ⊢
        have hcell := (search_mem hsearch).1
        have hright : Linked links' null link (links.right link) right := by
          refine hr.congr fun other hother ↦ hl.sameAt_outside hcell hdetached ?_ ?_ ?_
          · exact fun h ↦ hdisj h hother
          · exact .inl fun h ↦ hrootRight (h ▸ hother)
          · exact hr.ne_null other hother
        have hleft := ihl hl hordered.2.2.1 hrootLeft hsearch hone
        have hentry : links'.left link = detachLink cell (onlyChild links null cell)
              (links.left link) ∧ links'.right link = links.right link ∧
            links'.parent link = links.parent link := by
          by_cases hlink : links.left link = cell
          · have hpoint : links.parent cell = link := hl.parent_of_link hcell hlink
            refine ⟨?_, ?_, ?_⟩
            · simpa [hpoint, detachLink] using hdetached.pointLeft
            · simpa [hpoint, hlink] using hdetached.pointRight
            · simpa [hpoint] using hdetached.pointParent
          · have hsame := hl.sameAt_outside hcell hdetached hrootLeft (.inr hlink) hroot
            exact ⟨by rw [hsame.1, detachLink, if_neg hlink], hsame.2⟩
        have hcellRoot : link ≠ cell := fun h ↦ hrootLeft (h ▸ hcell)
        rw [detachLink, if_neg hcellRoot]
        refine ⟨rfl, hroot, hentry.2.2.trans hpar, ?_, ?_⟩
        · rwa [hentry.1]
        · rwa [hentry.2.1]
      · rename_i hge
        rw [if_neg hge] at hone ⊢
        have hcell := (search_mem hsearch).1
        have hleft : Linked links' null link (links.left link) left := by
          refine hl.congr fun other hother ↦ hr.sameAt_outside hcell hdetached ?_ ?_ ?_
          · exact fun h ↦ hdisj hother h
          · exact .inl fun h ↦ hrootLeft (h ▸ hother)
          · exact hl.ne_null other hother
        have hright := ihr hr hordered.2.2.2 hrootRight hsearch hone
        have hentry : links'.right link = detachLink cell (onlyChild links null cell)
              (links.right link) ∧ links'.left link = links.left link ∧
            links'.parent link = links.parent link := by
          by_cases hlink : links.right link = cell
          · have hpoint : links.parent cell = link := hr.parent_of_link hcell hlink
            -- The cell is in the right subtree, so the left link does not lead to it.
            have hnotLeft : links.left link ≠ cell := by
              intro h
              rcases hl.link_mem with hnull | hmem
              · exact hr.ne_null cell hcell (h.symm.trans hnull)
              · exact hdisj (h ▸ hmem) hcell
            refine ⟨?_, ?_, ?_⟩
            · simpa [hpoint, hnotLeft, detachLink, hlink] using hdetached.pointRight
            · simpa [hpoint, hnotLeft] using hdetached.pointLeft
            · simpa [hpoint] using hdetached.pointParent
          · have hsame := hr.sameAt_outside hcell hdetached hrootRight (.inr hlink) hroot
            exact ⟨by rw [hsame.2.1, detachLink, if_neg hlink], hsame.1, hsame.2.2⟩
        have hcellRoot : link ≠ cell := fun h ↦ hrootRight (h ▸ hcell)
        rw [detachLink, if_neg hcellRoot]
        refine ⟨rfl, hroot, hentry.2.2.trans hpar, ?_, ?_⟩
        · rwa [hentry.2.1]
        · rwa [hentry.1]

end

end Linked

end DionysOS.Foundation.LinkedTree
