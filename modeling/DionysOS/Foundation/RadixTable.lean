import Mathlib.Algebra.Order.Ring.Nat
import Mathlib.Data.BitVec
import Mathlib.Order.Nat

/-!
# Trees of tables

A memory of tables: each page holds entries by index, and `next` says which page an entry refers to,
if any. `reach` follows a path of indices from a root. Two changes keep a tree of tables a tree: a
new entry in a table of the last level, and a link to a page that is not in the tree. Neither
changes what other paths reach.
-/

namespace DionysOS.Foundation.RadixTable

open Function Option List

variable {Page Index Entry : Type*} {next : Entry → Option Page}
  {memory memory' : Page → Index → Entry} {root page fresh : Page} {path : List Index}
  {index : Index} {depth : ℕ}

def reach (next : Entry → Option Page) (memory : Page → Index → Entry) :
    Page → List Index → Option Page
  | page, [] => some page
  | page, index :: path => (next (memory page index)).bind fun child ↦ reach next memory child path

def entryAt (next : Entry → Option Page) (memory : Page → Index → Entry) (root : Page)
    (path : List Index) (index : Index) : Option Entry :=
  (reach next memory root path).map fun page ↦ memory page index

/-- No page is reached by two paths. -/
def TablesDistinct (next : Entry → Option Page) (memory : Page → Index → Entry) (root : Page)
    (depth : ℕ) : Prop :=
  ∀ ⦃path path' : List Index⦄ ⦃page : Page⦄, path.length ≤ depth → path'.length ≤ depth →
    reach next memory root path = some page → reach next memory root path' = some page →
      path = path'

@[simp]
theorem reach_nil : reach next memory page [] = some page := rfl

theorem reach_append (path' : List Index) : ∀ (path : List Index) (page : Page),
    reach next memory page (path ++ path') =
      (reach next memory page path).bind fun child ↦ reach next memory child path'
  | [], _ => rfl
  | index :: path, page => by
      simp only [cons_append, reach, bind_assoc]
      congr 1
      funext child
      exact reach_append path' path child

theorem reach_concat (hreach : reach next memory root path = some page) (index : Index) :
    reach next memory root (path ++ [index]) = next (memory page index) := by
  rw [reach_append, hreach, bind_some, reach]
  cases next (memory page index) <;> rfl

theorem reach_congr : ∀ (path : List Index) (root : Page),
    (∀ before index after page, path = before ++ index :: after →
      reach next memory root before = some page → memory' page index = memory page index) →
    reach next memory' root path = reach next memory root path
  | [], _, _ => rfl
  | index :: path, root, hsame => by
      have hfirst : memory' root index = memory root index := hsame [] index path root rfl rfl
      rw [reach, reach, hfirst]
      cases hnext : next (memory root index) with
      | none => rfl
      | some child =>
        refine reach_congr path child fun before index' after page hpath hreach ↦ ?_
        refine hsame (index :: before) index' after page (by rw [hpath]; rfl) ?_
        rw [reach, hnext, bind_some, hreach]

section Updates

variable [DecidableEq Page] [DecidableEq Index]

/-- `table[index] = entry`. -/
def store (memory : Page → Index → Entry) (page : Page) (index : Index) (entry : Entry) :
    Page → Index → Entry :=
  update memory page (update (memory page) index entry)

theorem store_self (memory : Page → Index → Entry) (page : Page) (index : Index) (entry : Entry) :
    store memory page index entry page index = entry := by
  simp [store]

theorem store_of_ne {other : Page} {other' : Index} (hne : other ≠ page ∨ other' ≠ index)
    (entry : Entry) : store memory page index entry other other' = memory other other' := by
  unfold store
  by_cases hpage : other = page
  · subst hpage
    rw [update_self, update_of_ne (hne.resolve_left (not_not.mpr rfl))]
  · rw [update_of_ne hpage]

variable {path' : List Index}

theorem reach_store_last (hdist : TablesDistinct next memory root depth)
    (hlen : path.length = depth) (hreach : reach next memory root path = some page)
    (entry : Entry) (hlen' : path'.length ≤ depth) :
    reach next (store memory page index entry) root path' = reach next memory root path' := by
  refine reach_congr path' root fun before index' after page' hsplit hbefore ↦ ?_
  refine store_of_ne (.inl ?_) entry
  rintro rfl
  -- A proper prefix is shorter than the path that leads to the last level.
  have hsame := hdist hlen.le (by rw [hsplit] at hlen'; simp at hlen'; omega) hreach
    hbefore
  have hlong := congrArg length hsplit
  simp only [length_append, length_cons] at hlong
  rw [← hsame] at hlong
  omega

theorem entryAt_store_last (hdist : TablesDistinct next memory root depth)
    (hlen : path.length = depth) (hreach : reach next memory root path = some page)
    (entry : Entry) (hlen' : path'.length ≤ depth) (index' : Index) :
    entryAt next (store memory page index entry) root path' index' =
      if path' = path ∧ index' = index then some entry
      else entryAt next memory root path' index' := by
  rw [entryAt, entryAt, reach_store_last hdist hlen hreach entry hlen']
  by_cases hsame : path' = path ∧ index' = index
  · rw [if_pos hsame, hsame.1, hsame.2, hreach, map_some, store_self]
  · rw [if_neg hsame]
    cases hreach' : reach next memory root path' with
    | none => rfl
    | some page' =>
      rw [map_some, map_some, store_of_ne]
      by_contra hboth
      obtain ⟨hpage, hidx⟩ := not_or.mp hboth
      obtain rfl := not_not.mp hpage
      exact hsame ⟨hdist hlen' hlen.le hreach' hreach, not_not.mp hidx⟩

/-- A page whose entries are all `zero`, referred to by an entry that referred to nothing. -/
def link (memory : Page → Index → Entry) (page : Page) (index : Index) (entry zero : Entry)
    (fresh : Page) : Page → Index → Entry :=
  store (update memory fresh fun _ ↦ zero) page index entry

section Link

variable {entry zero : Entry} (hlen : path.length < depth)
  (hreach : reach next memory root path = some page) (habsent : next (memory page index) = none)
  (hfresh : ∀ path : List Index, path.length ≤ depth → reach next memory root path ≠ some fresh)
  (hentry : next entry = some fresh) (hzero : next zero = none)

theorem link_of_ne {page' : Page} {index' : Index} (hpage : page' ≠ fresh)
    (hne : page' ≠ page ∨ index' ≠ index) :
    link memory page index entry zero fresh page' index' = memory page' index' := by
  rw [link, store_of_ne hne, update_of_ne hpage]

include hlen hreach hfresh

theorem link_fresh (index' : Index) : link memory page index entry zero fresh fresh index' = zero := by
  have hne : fresh ≠ page := fun h ↦ hfresh path hlen.le (h ▸ hreach)
  rw [link, store_of_ne (.inl hne), update_self]

include habsent hentry hzero

section

variable (hdist : TablesDistinct next memory root depth)
include hdist

theorem reach_link (hlen' : path'.length ≤ depth) :
    reach next (link memory page index entry zero fresh) root path' =
      if path' = path ++ [index] then some fresh else reach next memory root path' := by
  set memory' := link memory page index entry zero fresh with hmemory'
  -- The path to the page itself does not read its entry.
  have hpath : reach next memory' root path = some page := by
    rw [← hreach]
    refine reach_congr path root fun before index' after page' hsplit hbefore ↦ ?_
    have hshort : before.length < path.length := by
      rw [hsplit]
      simp
    refine link_of_ne (fun h ↦ ?_) (.inl fun h ↦ ?_)
    · exact hfresh before (by omega) (h ▸ hbefore)
    · have hsame := hdist (by omega) (by omega) (h ▸ hbefore) hreach
      rw [hsame] at hshort
      exact absurd hshort (lt_irrefl _)
  have hself : memory' page index = entry := store_self ..
  have hnew : reach next memory' root (path ++ [index]) = some fresh := by
    rw [reach_concat hpath, hself, hentry]
  have hold : reach next memory root (path ++ [index]) = none := by
    rw [reach_concat hreach, habsent]
  by_cases hprefix : (path ++ [index]) <+: path'
  · obtain ⟨rest, rfl⟩ := hprefix
    rw [reach_append, hnew, bind_some]
    cases rest with
    | nil => simp
    | cons index' rest =>
      have hne : path ++ [index] ++ index' :: rest ≠ path ++ [index] := by simp
      have hnothing : next (memory' fresh index') = none := by
        rw [hmemory', link_fresh hlen hreach hfresh, hzero]
      rw [if_neg hne, reach_append, hold, reach, hnothing]
      rfl
  · have hne : path' ≠ path ++ [index] := by
      rintro rfl
      exact hprefix prefix_rfl
    rw [if_neg hne]
    refine reach_congr path' root fun before index' after page' hsplit hbefore ↦ ?_
    have hshort : before.length < path'.length := by
      rw [hsplit]
      simp
    refine link_of_ne (fun h ↦ ?_) ?_
    · exact hfresh before (by omega) (h ▸ hbefore)
    · by_contra hboth
      obtain ⟨hpage, hidx⟩ := not_or.mp hboth
      have hsame := hdist (by omega) (by omega) (not_not.mp hpage ▸ hbefore) hreach
      refine hprefix ⟨after, ?_⟩
      rw [hsplit, hsame, not_not.mp hidx]
      simp

theorem tablesDistinct_link :
    TablesDistinct next (link memory page index entry zero fresh) root depth := by
  intro path₁ path₂ page' hlen₁ hlen₂ hreach₁ hreach₂
  rw [reach_link hlen hreach habsent hfresh hentry hzero hdist hlen₁] at hreach₁
  rw [reach_link hlen hreach habsent hfresh hentry hzero hdist hlen₂] at hreach₂
  split at hreach₁ <;> split at hreach₂
  · rename_i h₁ h₂
    rw [h₁, h₂]
  · obtain rfl := some.inj hreach₁
    exact absurd hreach₂ (hfresh path₂ hlen₂)
  · obtain rfl := some.inj hreach₂
    exact absurd hreach₁ (hfresh path₁ hlen₁)
  · exact hdist hlen₁ hlen₂ hreach₁ hreach₂

theorem entryAt_link
    (hlen' : path'.length ≤ depth) (index' : Index) (hother : path' ≠ path ∨ index' ≠ index) :
    entryAt next (link memory page index entry zero fresh) root path' index' =
      if path' = path ++ [index] then some zero else entryAt next memory root path' index' := by
  rw [entryAt, entryAt, reach_link hlen hreach habsent hfresh hentry hzero hdist hlen']
  split
  · rw [map_some, link_fresh hlen hreach hfresh]
  · cases hreach' : reach next memory root path' with
    | none => rfl
    | some page' =>
      rw [map_some, map_some, link_of_ne]
      · rintro rfl
        exact hfresh path' hlen' hreach'
      · refine hother.imp_left fun hpath h ↦ hpath ?_
        exact hdist hlen' hlen.le (h ▸ hreach') hreach

end

end Link

end Updates

end DionysOS.Foundation.RadixTable
