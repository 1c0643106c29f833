import DionysOS.Foundation.RadixTable

/-!
# What is below a table

The tables below a table, children before their parents, and the leaves behind the tables of the
last level. In a tree no table is listed twice, and a memory that agrees on the tables of a subtree
has the same subtree.
-/

namespace DionysOS.Foundation.RadixTable

open List Option

variable {Page Index Entry Leaf : Type*} {next : Entry → Option Page} {leaf : Entry → Option Leaf}
  {mem mem' : Page → Index → Entry} {indices : List Index} {page : Page} {index idx : Index}
  {depth : ℕ}

def subtables (next : Entry → Option Page) (indices : List Index) (memory : Page → Index → Entry) :
    ℕ → Page → List Page
  | 0, _ => []
  | depth + 1, page => indices.flatMap fun index ↦
      (next (memory page index)).elim [] fun child ↦
        subtables next indices memory depth child ++ [child]

/-- The tables of one entry: the one that it refers to, after those below that one. -/
def branch (next : Entry → Option Page) (indices : List Index) (memory : Page → Index → Entry)
    (depth : ℕ) (page : Page) (index : Index) : List Page :=
  (next (memory page index)).elim [] fun child ↦ subtables next indices memory depth child ++ [child]

/-- The leaves in the tables that are `depth` levels below a table. -/
def leaves (next : Entry → Option Page) (leaf : Entry → Option Leaf) (indices : List Index)
    (memory : Page → Index → Entry) : ℕ → Page → List Leaf
  | 0, page => indices.flatMap fun index ↦ (leaf (memory page index)).toList
  | depth + 1, page => indices.flatMap fun index ↦
      (next (memory page index)).elim [] fun child ↦ leaves next leaf indices memory depth child

def branchLeaves (next : Entry → Option Page) (leaf : Entry → Option Leaf) (indices : List Index)
    (memory : Page → Index → Entry) (depth : ℕ) (page : Page) (index : Index) : List Leaf :=
  (next (memory page index)).elim [] fun child ↦ leaves next leaf indices memory depth child

theorem branch_of_none (habsent : next (mem page idx) = none) :
    branch next indices mem depth page idx = [] := by
  rw [branch, habsent, elim_none]

theorem branch_of_some {child : Page} (hchild : next (mem page idx) = some child) :
    branch next indices mem depth page idx =
      subtables next indices mem depth child ++ [child] := by
  rw [branch, hchild, elim_some]

theorem branchLeaves_of_none (habsent : next (mem page idx) = none) :
    branchLeaves next leaf indices mem depth page idx = [] := by
  rw [branchLeaves, habsent, elim_none]

theorem branchLeaves_of_some {child : Page} (hchild : next (mem page idx) = some child) :
    branchLeaves next leaf indices mem depth page idx =
      leaves next leaf indices mem depth child := by
  rw [branchLeaves, hchild, elim_some]

theorem mem_branch {table : Page} : table ∈ branch next indices mem depth page idx ↔
    ∃ child, next (mem page idx) = some child ∧
      (table ∈ subtables next indices mem depth child ∨ table = child) := by
  cases hchild : next (mem page idx) with
  | none => simp [branch_of_none hchild]
  | some child => simp [branch_of_some hchild]

theorem mem_branch_iff_of {table : Page}
    (hbelow : ∀ child, table ∈ subtables next indices mem depth child ↔
      ∃ idx path, path.length < depth ∧ reach next mem child (idx :: path) = some table) :
    table ∈ branch next indices mem depth page idx ↔
      ∃ path, path.length ≤ depth ∧ reach next mem page (idx :: path) = some table := by
  rw [mem_branch]
  constructor
  · rintro ⟨child, hchild, htable | rfl⟩
    · obtain ⟨idx', path, hlen, hreach⟩ := (hbelow child).mp htable
      exact ⟨idx' :: path, hlen, by rw [reach, hchild, bind_some, hreach]⟩
    · exact ⟨[], Nat.zero_le _, by rw [reach, hchild, bind_some, reach_nil]⟩
  · rintro ⟨path, hlen, hreach⟩
    rw [reach, bind_eq_some_iff] at hreach
    obtain ⟨child, hchild, hreach⟩ := hreach
    refine ⟨child, hchild, ?_⟩
    cases path with
    | nil => exact .inr (some.inj hreach).symm
    | cons idx' path => exact .inl ((hbelow child).mpr ⟨idx', path, hlen, hreach⟩)

theorem mem_subtables {table : Page} (hall : ∀ i : Index, i ∈ indices) : ∀ {depth : ℕ} (page : Page),
    table ∈ subtables next indices mem depth page ↔
      ∃ index path, path.length < depth ∧ reach next mem page (index :: path) = some table
  | 0, page => by simp [subtables]
  | depth + 1, page => by
      have hunfold : table ∈ subtables next indices mem (depth + 1) page ↔
          ∃ index ∈ indices, table ∈ branch next indices mem depth page index :=
        mem_flatMap
      simp only [hunfold, mem_branch_iff_of (mem_subtables hall), hall, true_and, Nat.lt_succ_iff]

theorem mem_branch_iff_reach {table : Page} (hall : ∀ i : Index, i ∈ indices) :
    table ∈ branch next indices mem depth page idx ↔
      ∃ path, path.length ≤ depth ∧ reach next mem page (idx :: path) = some table :=
  mem_branch_iff_of (mem_subtables hall)

theorem mem_branchLeaves {value : Leaf} :
    value ∈ branchLeaves next leaf indices mem depth page idx ↔
      ∃ child, next (mem page idx) = some child ∧
        value ∈ leaves next leaf indices mem depth child := by
  cases hchild : next (mem page idx) with
  | none => simp [branchLeaves_of_none hchild]
  | some child => simp [branchLeaves_of_some hchild]

theorem mem_leaves {value : Leaf} (hall : ∀ i : Index, i ∈ indices) : ∀ {depth : ℕ} {page : Page},
    value ∈ leaves next leaf indices mem depth page ↔
      ∃ path last table, path.length = depth ∧ reach next mem page path = some table ∧
        leaf (mem table last) = some value
  | 0, page => by
      simp only [leaves, mem_flatMap, mem_toList, length_eq_zero_iff]
      constructor
      · rintro ⟨last, -, hleaf⟩
        exact ⟨[], last, page, rfl, rfl, hleaf⟩
      · rintro ⟨_, last, _, rfl, ⟨⟩, hleaf⟩
        exact ⟨last, hall last, hleaf⟩
  | depth + 1, page => by
      have hunfold : value ∈ leaves next leaf indices mem (depth + 1) page ↔
          ∃ index ∈ indices, value ∈ branchLeaves next leaf indices mem depth page index :=
        mem_flatMap
      rw [hunfold]
      constructor
      · rintro ⟨index, -, hbranch⟩
        obtain ⟨child, hchild, hvalue⟩ := mem_branchLeaves.mp hbranch
        obtain ⟨path, last, table, hlen, hreach, hleaf⟩ := (mem_leaves hall).mp hvalue
        refine ⟨index :: path, last, table, by simpa using hlen, ?_, hleaf⟩
        rw [reach, hchild, bind_some, hreach]
      · rintro ⟨path, last, table, hlen, hreach, hleaf⟩
        obtain ⟨index, path, rfl⟩ := exists_cons_of_length_eq_add_one hlen
        rw [reach, bind_eq_some_iff] at hreach
        obtain ⟨child, hchild, hreach⟩ := hreach
        refine ⟨index, hall index, mem_branchLeaves.mpr ⟨child, hchild, ?_⟩⟩
        exact (mem_leaves hall).mpr ⟨path, last, table, by simpa using hlen, hreach, hleaf⟩

theorem TablesDistinct.child {child : Page} (hdist : TablesDistinct next mem page (depth + 1))
    (hchild : next (mem page idx) = some child) : TablesDistinct next mem child depth := by
  intro path path' table hlen hlen' hreach hreach'
  have hbelow : ∀ path, reach next mem page (idx :: path) = reach next mem child path :=
    fun path ↦ by rw [reach, hchild, bind_some]
  have hsame := @hdist (idx :: path) (idx :: path') table (by simpa using hlen)
    (by simpa using hlen') ((hbelow path).trans hreach) ((hbelow path').trans hreach')
  exact (cons.inj hsame).2

section

variable (hall : ∀ i : Index, i ∈ indices) (hdist : TablesDistinct next mem page (depth + 1))
include hall hdist

theorem disjoint_branch {idx' : Index} (hne : idx ≠ idx') :
    Disjoint (branch next indices mem depth page idx)
      (branch next indices mem depth page idx') := by
  intro table h h'
  obtain ⟨path, hlen, hreach⟩ := (mem_branch_iff_reach hall).mp h
  obtain ⟨path', hlen', hreach'⟩ := (mem_branch_iff_reach hall).mp h'
  have hsame := hdist (by simpa using hlen) (by simpa using hlen') hreach hreach'
  exact hne (cons.inj hsame).1

theorem not_mem_branch_self :
    page ∉ branch next indices mem depth page index := by
  intro h
  obtain ⟨path, hlen, hreach⟩ := (mem_branch_iff_reach hall).mp h
  have hsame := hdist (by simpa using hlen) (Nat.zero_le _) hreach reach_nil
  exact cons_ne_nil _ _ hsame

theorem nodup_flatMap_of_branch
    (hbranch : ∀ idx, (branch next indices mem depth page idx).Nodup) {part : List Index}
    (hpart : part.Nodup) : (page :: part.flatMap (branch next indices mem depth page)).Nodup := by
  refine nodup_cons.mpr ⟨fun h ↦ ?_, nodup_flatMap.mpr ⟨fun idx _ ↦ hbranch idx, ?_⟩⟩
  · obtain ⟨idx, -, hmem⟩ := mem_flatMap.mp h
    exact not_mem_branch_self hall hdist hmem
  · exact hpart.imp fun hne ↦ disjoint_branch hall hdist hne

end

theorem nodup_branch (hall : ∀ i : Index, i ∈ indices) (hindices : indices.Nodup) :
    ∀ {depth : ℕ} {page : Page}, TablesDistinct next mem page (depth + 1) → ∀ idx,
      (branch next indices mem depth page idx).Nodup := by
  intro depth
  induction depth with
  | zero =>
    intro page _ idx
    cases hchild : next (mem page idx) with
    | none => simp [branch_of_none hchild]
    | some child => simp [branch_of_some hchild, subtables]
  | succ depth ih =>
    intro page hdist idx
    cases hchild : next (mem page idx) with
    | none => simp [branch_of_none hchild]
    | some child =>
      have hbelow := hdist.child hchild
      rw [branch_of_some hchild]
      refine (perm_append_singleton _ _).nodup_iff.mpr ?_
      exact nodup_flatMap_of_branch hall hbelow (ih hbelow) hindices

theorem branch_congr (hbelow : ∀ child,
      (∀ table ∈ child :: subtables next indices mem depth child, mem' table = mem table) →
      subtables next indices mem' depth child = subtables next indices mem depth child ∧
        leaves next leaf indices mem' depth child = leaves next leaf indices mem depth child)
    (hentry : mem' page index = mem page index)
    (hsame : ∀ table ∈ branch next indices mem depth page index, mem' table = mem table) :
    branch next indices mem' depth page index = branch next indices mem depth page index ∧
      branchLeaves next leaf indices mem' depth page index =
        branchLeaves next leaf indices mem depth page index := by
  rw [branch, branch, branchLeaves, branchLeaves, hentry]
  cases hchild : next (mem page index) with
  | none => exact ⟨rfl, rfl⟩
  | some child =>
    obtain ⟨hsubtables, hleaves⟩ := hbelow child fun table htable ↦
      hsame table (mem_branch.mpr ⟨child, hchild, (mem_cons.mp htable).symm⟩)
    exact ⟨congrArg (· ++ [child]) hsubtables, hleaves⟩

theorem below_congr : ∀ {depth : ℕ} (page : Page),
    (∀ table ∈ page :: subtables next indices mem depth page, mem' table = mem table) →
      subtables next indices mem' depth page = subtables next indices mem depth page ∧
        leaves next leaf indices mem' depth page = leaves next leaf indices mem depth page
  | 0, page, hsame => ⟨rfl, by rw [leaves, leaves, hsame page mem_cons_self]⟩
  | depth + 1, page, hsame => by
      have hbranch := fun index hidx ↦ @branch_congr _ _ _ _ next leaf mem mem' indices page
        index depth below_congr (by rw [hsame page mem_cons_self]) fun table htable ↦
          hsame table (mem_cons_of_mem _ (mem_flatMap.mpr ⟨index, hidx, htable⟩))
      exact ⟨flatMap_congr fun index hidx ↦ (hbranch index hidx).1,
        flatMap_congr fun index hidx ↦ (hbranch index hidx).2⟩

end DionysOS.Foundation.RadixTable
