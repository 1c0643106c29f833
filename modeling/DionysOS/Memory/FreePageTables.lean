import DionysOS.Foundation.RadixTraversal
import DionysOS.Memory.Paging

/-!
# Freeing an address space

`free_page_tables` of the x86-64 `vmm.c`: four nested loops that pass the user pages of the lower half
to `ufree` and its tables to `kfree`. The model keeps the calls in order. A page that was freed keeps
its contents, and reading or writing a table that was freed is on record.

`get_next_level` returns the address of the next table, and `NULL` if there is none. A table at the
physical address 0 is therefore taken for an entry that is not present.
-/

namespace DionysOS.Memory.Paging

open Foundation.RadixTable List

def USER_STACK_TOP : Word := 0x7FFFFFFFF000#64

/-- The tables, the pages that were passed to `ufree` and to `kfree`, and the tables that were used
after that. -/
structure Teardown where
  memory : TableMemory
  ufreed : List Word
  kfreed : List Word
  stale : List Word

namespace Teardown

def touch (state : Teardown) (table : Word) : Teardown :=
  if table ∈ state.kfreed ∨ table ∈ state.ufreed then { state with stale := state.stale ++ [table] }
  else state

def read (state : Teardown) (table : Word) (index : Index) : Teardown × Word :=
  (state.touch table, state.memory table index)

def write (state : Teardown) (table : Word) (index : Index) (entry : Word) : Teardown :=
  { state.touch table with memory := store state.memory table index entry }

def ufree (state : Teardown) (page : Word) : Teardown :=
  { state with ufreed := state.ufreed ++ [page] }

def kfree (state : Teardown) (table : Word) : Teardown :=
  { state with kfreed := state.kfreed ++ [table] }

end Teardown

/-- `get_next_level`: the address of the next table, or `NULL`. -/
def getNextLevel (state : Teardown) (table : Word) (index : Index) : Teardown × Word :=
  let (state, entry) := state.read table index
  (state, if entry &&& PTE_P = 0 then 0 else PTE_ADDR entry)

/-- `for (index = 0; index < ENTRIES_PER_TABLE; index++)`: the body says whether the loop goes on. -/
def forEntries (body : Teardown → Index → Teardown × Bool) : List Index → Teardown → Teardown
  | [], state => state
  | index :: indices, state =>
      let (state, continues) := body state index
      if continues then forEntries body indices state else state

def entries : List Index := List.finRange 512

/-- `(uintptr_t)index << shift`. -/
def shifted (index : Index) (shift : ℕ) : Word := BitVec.ofNat 64 index.val <<< shift

/-- A round of the loop over a table of the last level. -/
def freePteEntry (pte : Word) (state : Teardown) (index : Index) : Teardown × Bool :=
  let (state, entry) := state.read pte index
  if entry &&& PTE_P ≠ 0 then
    let state := if entry &&& PTE_U ≠ 0 then state.ufree (PTE_ADDR entry) else state
    (state.write pte index 0, true)
  else (state, true)

/-- The loop over a table of the last level. It has no range to check. -/
def freePte (_base pte : Word) : Teardown → Teardown := forEntries (freePteEntry pte) entries

/-- What a round does with the next table: nothing if there is none, and else it frees what is below,
clears the entry and frees the table. -/
def freeChild (freeBelow : Word → Word → Teardown → Teardown) (state : Teardown) (table : Word)
    (index : Index) (base child : Word) : Teardown × Bool :=
  if child = 0 then (state, true)
  else (((freeBelow base child state).write table index 0).kfree child, true)

/-- A round of the loop over a table between the first and the last level. -/
def freeTableEntry (shift : ℕ) (freeBelow : Word → Word → Teardown → Teardown) (base table : Word)
    (state : Teardown) (index : Index) : Teardown × Bool :=
  let childBase := base ||| shifted index shift
  if USER_STACK_TOP < childBase then (state, false)
  else
    let (state, child) := getNextLevel state table index
    freeChild freeBelow state table index childBase child

def freeTable (shift : ℕ) (freeBelow : Word → Word → Teardown → Teardown) (base table : Word) :
    Teardown → Teardown :=
  forEntries (freeTableEntry shift freeBelow base table) entries

def freePmd : Word → Word → Teardown → Teardown := freeTable 21 freePte

def freePud : Word → Word → Teardown → Teardown := freeTable 30 freePmd

/-- A round of the outer loop, which reads the top level before it ends. -/
def freeTopEntry (pgdir : Word) (state : Teardown) (index : Index) : Teardown × Bool :=
  let (state, pud) := getNextLevel state pgdir index
  let base := shifted index 39
  if USER_STACK_TOP < base then (state, false)
  else freeChild freePud state pgdir index base pud

def freePageTables (pgdir : Word) : Teardown → Teardown := forEntries (freeTopEntry pgdir) entries

def userLeaf (entry : Word) : Option Word :=
  if entry &&& PTE_P ≠ 0 ∧ entry &&& PTE_U ≠ 0 then some (PTE_ADDR entry) else none

def lowerHalf : List Index := entries.take 256

def lowerTables (memory : TableMemory) (pgdir : Word) : List Word :=
  lowerHalf.flatMap (branch next entries memory 2 pgdir)

/-- The pages of the user entries of the lower half, one for each entry. -/
def lowerLeaves (memory : TableMemory) (pgdir : Word) : List Word :=
  lowerHalf.flatMap (branchLeaves next userLeaf entries memory 2 pgdir)

/-- The tables of a loop, and the pages behind them: all tables are different ones in use, and none
of them is mapped. -/
structure Intact (state : Teardown) (table : Word) (tables leaves : List Word) : Prop where
  nodup : (table :: tables).Nodup
  inUse : ∀ page ∈ table :: tables, page ∉ state.kfreed ∧ page ∉ state.ufreed
  notMapped : ∀ page ∈ table :: tables, page ∉ leaves
  nonzero : ∀ page ∈ tables, page ≠ 0

/-- What a loop over some entries of a table does. -/
structure Frees (before after : Teardown) (table : Word) (indices : List Index)
    (tables leaves : List Word) : Prop where
  kfreed : after.kfreed = before.kfreed ++ tables
  ufreed : after.ufreed = before.ufreed ++ leaves
  stale : after.stale = before.stale
  frame : ∀ page index, page ∉ tables → (page ≠ table ∨ index ∉ indices) →
    after.memory page index = before.memory page index
  cleared : ∀ index ∈ indices, next (after.memory table index) = none

/-- The round for one entry of a table goes on, and frees what is behind the entry. -/
def FreesEntry (round : Teardown × Bool) (state : Teardown) (table : Word) (index : Index)
    (tables leaves : List Word) : Prop :=
  Intact state table tables leaves →
    ∃ after, round = (after, true) ∧ Frees state after table [index] tables leaves

variable {state : Teardown} {table base : Word} {indices : List Index} {index idx : Index} {depth : ℕ}
  {freeBelow : Word → Word → Teardown → Teardown}

theorem touch_of_inUse
    (hinUse : table ∉ state.kfreed ∧ table ∉ state.ufreed) : state.touch table = state :=
  if_neg (not_or.mpr hinUse)

theorem Frees.refl (habsent : ∀ idx ∈ indices, next (state.memory table idx) = none) :
    Frees state state table indices [] [] :=
  ⟨(append_nil _).symm, (append_nil _).symm, rfl, fun _ _ _ _ ↦ rfl, habsent⟩

theorem Frees.cons {before mid after : Teardown} {tables tables' leaves leaves' : List Word}
    (hfirst : Frees before mid table [idx] tables leaves)
    (hrest : Frees mid after table indices tables' leaves') (htable : table ∉ tables') :
    Frees before after table (idx :: indices) (tables ++ tables') (leaves ++ leaves') where
  kfreed := by rw [hrest.kfreed, hfirst.kfreed, append_assoc]
  ufreed := by rw [hrest.ufreed, hfirst.ufreed, append_assoc]
  stale := hrest.stale.trans hfirst.stale
  frame page idx' hpage hne := by
    rw [mem_append, not_or] at hpage
    have hne' : page ≠ table ∨ idx' ≠ idx ∧ idx' ∉ indices := by simpa using hne
    rw [hrest.frame page idx' hpage.2 (hne'.imp_right And.right),
      hfirst.frame page idx' hpage.1 (hne'.imp_right fun h ↦ by simpa using h.1)]
  cleared idx' hidx' := by
    by_cases hlater : idx' ∈ indices
    · exact hrest.cleared idx' hlater
    · rw [hrest.frame table idx' htable (.inr hlater)]
      refine hfirst.cleared idx' ?_
      rcases mem_cons.mp hidx' with rfl | hmem
      · exact mem_singleton_self _
      · exact absurd hmem hlater

section Intact

variable {state mid : Teardown} {table : Word} {index idx : Index}
  {tables tables' leaves leaves' : List Word}

theorem Intact.left (hintact : Intact state table (tables ++ tables') (leaves ++ leaves')) :
    Intact state table tables leaves where
  nodup := hintact.nodup.sublist (cons_sublist_cons.mpr (sublist_append_left _ _))
  inUse page hpage := hintact.inUse page (by simp only [mem_cons, mem_append] at *; tauto)
  notMapped page hpage h := hintact.notMapped page
    (by simp only [mem_cons, mem_append] at *; tauto) (mem_append_left _ h)
  nonzero page hpage := hintact.nonzero page (mem_append_left _ hpage)

theorem Intact.right (hintact : Intact state table (tables ++ tables') (leaves ++ leaves'))
    (hfrees : Frees state mid table [idx] tables leaves) : Intact mid table tables' leaves' where
  nodup := hintact.nodup.sublist (cons_sublist_cons.mpr (sublist_append_right _ _))
  inUse page hpage := by
    have hmem : page ∈ table :: (tables ++ tables') := by
      simp only [mem_cons, mem_append] at *
      tauto
    obtain ⟨hkfreed, hufreed⟩ := hintact.inUse page hmem
    have hleaves := hintact.notMapped page hmem
    have hnodup := hintact.nodup
    rw [nodup_cons, nodup_append, mem_append, not_or] at hnodup
    rw [hfrees.kfreed, hfrees.ufreed, mem_append, mem_append]
    refine ⟨not_or.mpr ⟨hkfreed, fun h ↦ ?_⟩, not_or.mpr ⟨hufreed, fun h ↦ ?_⟩⟩
    · rcases mem_cons.mp hpage with rfl | hlater
      · exact hnodup.1.1 h
      · exact hnodup.2.2.2 page h page hlater rfl
    · exact hleaves (mem_append_left _ h)
  notMapped page hpage h := hintact.notMapped page
    (by simp only [mem_cons, mem_append] at *; tauto) (mem_append_right _ h)
  nonzero page hpage := hintact.nonzero page (mem_append_right _ hpage)

end Intact

theorem forEntries_spec {body : Teardown → Index → Teardown × Bool} {table : Word}
    {tables leaves : TableMemory → Index → List Word}
    (hcongr : ∀ mem mem' index, mem' table index = mem table index →
      (∀ page ∈ tables mem index, mem' page = mem page) →
        tables mem' index = tables mem index ∧ leaves mem' index = leaves mem index)
    (rest : List Index) : ∀ (indices : List Index) (state : Teardown), indices.Nodup →
      (∀ (state : Teardown), ∀ index ∈ indices, FreesEntry (body state index) state table index
        (tables state.memory index) (leaves state.memory index)) →
      Intact state table (indices.flatMap (tables state.memory))
        (indices.flatMap (leaves state.memory)) →
      ∃ after, forEntries body (indices ++ rest) state = forEntries body rest after ∧
        Frees state after table indices (indices.flatMap (tables state.memory))
          (indices.flatMap (leaves state.memory))
  | [], state, _, _, _ => ⟨state, rfl, Frees.refl (by simp)⟩
  | index :: indices, state, hnodup, hbody, hintact => by
      obtain ⟨hidx, hindices⟩ := nodup_cons.mp hnodup
      rw [flatMap_cons, flatMap_cons] at hintact
      obtain ⟨mid, hcall, hfirst⟩ := hbody state index mem_cons_self hintact.left
      -- The other entries and what is behind them are as before this round.
      have hsame : ∀ index' ∈ indices, tables mid.memory index' = tables state.memory index' ∧
          leaves mid.memory index' = leaves state.memory index' := by
        intro index' hidx'
        have hnodup := hintact.nodup
        rw [nodup_cons, nodup_append, mem_append, not_or] at hnodup
        refine hcongr _ _ _ ?_ fun page hpage ↦ funext fun i ↦ ?_
        · refine hfirst.frame _ _ hnodup.1.1 (.inr ?_)
          rw [mem_singleton]
          exact fun h ↦ hidx (h ▸ hidx')
        · have hlater : page ∈ indices.flatMap (tables state.memory) :=
            mem_flatMap.mpr ⟨index', hidx', hpage⟩
          refine hfirst.frame _ _ (fun h ↦ hnodup.2.2.2 page h page hlater rfl) (.inl ?_)
          rintro rfl
          exact hnodup.1.2 hlater
      have htables : indices.flatMap (tables mid.memory) = indices.flatMap (tables state.memory) :=
        flatMap_congr fun index' hidx' ↦ (hsame index' hidx').1
      have hleaves : indices.flatMap (leaves mid.memory) = indices.flatMap (leaves state.memory) :=
        flatMap_congr fun index' hidx' ↦ (hsame index' hidx').2
      have hintact' := hintact.right hfirst
      rw [← htables, ← hleaves] at hintact'
      obtain ⟨after, hrun, hrest⟩ := forEntries_spec hcongr rest indices mid hindices
        (fun state index hmem ↦ hbody state index (mem_cons_of_mem _ hmem)) hintact'
      refine ⟨after, ?_, ?_⟩
      · rw [cons_append, forEntries, hcall]
        exact hrun
      · rw [flatMap_cons, flatMap_cons, ← htables, ← hleaves]
        exact hfirst.cons hrest (nodup_cons.mp hintact'.nodup).1

/-- The start of a range of the lower half that a table of the last level covers, or a larger one. -/
def LowerBase (base : Word) : Prop := base &&& ~~~0x7FFFFFE00000#64 = 0

theorem LowerBase.not_above (hbase : LowerBase base) : ¬ USER_STACK_TOP < base := by
  have hmask : base &&& 0x7FFFFFE00000#64 = base := by
    have hnot := and_not_of_and_eq_zero hbase
    rwa [BitVec.not_not] at hnot
  rw [← hmask, BitVec.lt_def, BitVec.toNat_and, not_lt]
  exact le_trans Nat.and_le_right (by decide)

theorem LowerBase.or {base' : Word} (hbase : LowerBase base) (hbase' : LowerBase base') :
    LowerBase (base ||| base') := by
  rw [LowerBase, BitVec.and_or_distrib_right, hbase, hbase']
  rfl

theorem lowerBase_shifted_21 : ∀ idx : Index, LowerBase (shifted idx 21) := by
  unfold LowerBase
  decide +kernel

theorem lowerBase_shifted_30 : ∀ idx : Index, LowerBase (shifted idx 30) := by
  unfold LowerBase
  decide +kernel

theorem mem_entries (idx : Index) : idx ∈ entries := mem_finRange idx

theorem nodup_entries : entries.Nodup := nodup_finRange 512

theorem nodup_lowerHalf : lowerHalf.Nodup := nodup_entries.sublist (take_sublist _ _)

theorem length_entries : entries.length = 512 := length_finRange

theorem getElem_entries {i : ℕ} (h : i < entries.length) :
    entries[i] = ⟨i, length_entries ▸ h⟩ := by
  simp [entries]

theorem mem_lowerHalf (idx : Index) : idx ∈ lowerHalf ↔ idx.val < 256 := by
  rw [lowerHalf, mem_take_iff_getElem]
  simp only [getElem_entries, length_entries]
  constructor
  · rintro ⟨i, hi, rfl⟩
    exact lt_of_lt_of_le hi (min_le_left _ _)
  · exact fun h ↦ ⟨idx.val, Nat.lt_min.mpr ⟨h, idx.isLt⟩, rfl⟩

theorem entries_eq : entries = lowerHalf ++ (256 : Index) :: entries.drop 257 := by
  have hlen : 256 < entries.length := by
    rw [length_entries]
    decide
  have hslot : entries[256] = (256 : Index) := getElem_entries hlen
  rw [lowerHalf, ← hslot, ← drop_eq_getElem_cons hlen, take_append_drop]

theorem lowerBase_shifted_39 (idx : Index) (hidx : idx ∈ lowerHalf) :
    LowerBase (shifted idx 39) := by
  have hall : ∀ idx : Index, idx.val < 256 →
      shifted idx 39 &&& ~~~0x7FFFFFE00000#64 = 0 := by decide +kernel
  exact hall idx ((mem_lowerHalf idx).mp hidx)

/-- A loop over a table frees all that is below it. -/
def FreesBelow (freeBelow : Word → Word → Teardown → Teardown) (depth : ℕ) : Prop :=
  ∀ ⦃base table : Word⦄ ⦃state : Teardown⦄, LowerBase base →
    Intact state table (subtables next entries state.memory depth table)
      (leaves next userLeaf entries state.memory depth table) →
    Frees state (freeBelow base table state) table entries
      (subtables next entries state.memory depth table)
      (leaves next userLeaf entries state.memory depth table)

theorem freePteEntry_spec (pte : Word) (state : Teardown) (idx : Index) :
    FreesEntry (freePteEntry pte state idx) state pte idx []
      (userLeaf (state.memory pte idx)).toList := by
  intro hintact
  have hinUse := hintact.inUse pte mem_cons_self
  have hleaf := hintact.notMapped pte mem_cons_self
  simp only [freePteEntry, Teardown.read, touch_of_inUse hinUse]
  by_cases hpresent : state.memory pte idx &&& PTE_P = 0
  · rw [if_neg (not_not.mpr hpresent), userLeaf, if_neg fun h ↦ h.1 hpresent]
    refine ⟨state, rfl, Frees.refl fun idx' hidx' ↦ ?_⟩
    obtain rfl := mem_singleton.mp hidx'
    exact if_pos hpresent
  rw [if_pos hpresent]
  -- Whether the page is passed to `ufree` or not, the entry is cleared.
  have hcleared : ∀ freed : Teardown, freed.memory = state.memory → freed.kfreed = state.kfreed →
      freed.ufreed = state.ufreed ++ (userLeaf (state.memory pte idx)).toList →
      freed.stale = state.stale →
      Frees state (freed.write pte idx 0) pte [idx] []
        (userLeaf (state.memory pte idx)).toList := by
    intro freed hmemory hkfreed hufreed hstale
    have hfreed : pte ∉ freed.kfreed ∧ pte ∉ freed.ufreed := by
      rw [hkfreed, hufreed, mem_append, not_or]
      exact ⟨hinUse.1, hinUse.2, hleaf⟩
    rw [Teardown.write, touch_of_inUse hfreed]
    refine ⟨by simpa using hkfreed, hufreed, hstale, fun page idx' _ hne ↦ ?_,
      fun idx' hidx' ↦ ?_⟩
    · rw [← hmemory]
      exact store_of_ne (by simpa using hne) 0
    · obtain rfl := mem_singleton.mp hidx'
      exact (congrArg next (store_self ..)).trans next_zero
  by_cases huser : state.memory pte idx &&& PTE_U = 0
  · rw [if_neg (not_not.mpr huser)]
    refine ⟨_, rfl, hcleared state rfl rfl ?_ rfl⟩
    rw [userLeaf, if_neg fun h ↦ h.2 huser, Option.toList_none, append_nil]
  · rw [if_pos huser]
    refine ⟨_, rfl, hcleared (state.ufree _) rfl rfl ?_ rfl⟩
    rw [userLeaf, if_pos ⟨hpresent, huser⟩]
    rfl

theorem freesBelow_freePte : FreesBelow freePte 0 := by
  intro base table state _ hintact
  have hnone : entries.flatMap (fun _ ↦ ([] : List Word)) = [] := by simp
  obtain ⟨after, hrun, hfrees⟩ := @forEntries_spec (freePteEntry table) table (fun _ _ ↦ [])
    (fun mem idx ↦ (userLeaf (mem table idx)).toList)
    (fun mem mem' idx hentry _ ↦ ⟨rfl, by simp only [hentry]⟩) [] entries state nodup_entries
    (fun state idx _ ↦ freePteEntry_spec table state idx) (by rw [hnone]; exact hintact)
  rw [append_nil] at hrun
  rw [hnone] at hfrees
  rw [freePte, hrun]
  exact hfrees

theorem getNextLevel_of_inUse {state : Teardown} {table : Word}
    (hinUse : table ∉ state.kfreed ∧ table ∉ state.ufreed) (idx : Index) :
    getNextLevel state table idx = (state, (next (state.memory table idx)).getD 0) := by
  simp only [getNextLevel, Teardown.read, touch_of_inUse hinUse, next]
  split <;> rfl

theorem freeChild_spec (hbelow : FreesBelow freeBelow depth) (hbase : LowerBase base) :
    FreesEntry (freeChild freeBelow state table idx base ((next (state.memory table idx)).getD 0))
      state table idx (branch next entries state.memory depth table idx)
      (branchLeaves next userLeaf entries state.memory depth table idx) := by
  intro hintact
  cases hchild : next (state.memory table idx) with
  | none =>
    rw [branch_of_none hchild, branchLeaves_of_none hchild]
    exact ⟨state, if_pos rfl, Frees.refl (by simpa using hchild)⟩
  | some child =>
    rw [branch_of_some hchild, branchLeaves_of_some hchild] at hintact ⊢
    obtain ⟨htable, hnodup⟩ := nodup_cons.mp hintact.nodup
    have hperm := perm_append_singleton child
      (subtables next entries state.memory depth child)
    have hmem : ∀ page ∈ child :: subtables next entries state.memory depth child,
        page ∈ subtables next entries state.memory depth child ++ [child] :=
      fun page hpage ↦ hperm.mem_iff.mpr hpage
    have hchildIntact : Intact state child (subtables next entries state.memory depth child)
        (leaves next userLeaf entries state.memory depth child) :=
      ⟨hperm.nodup_iff.mp hnodup,
        fun page hpage ↦ hintact.inUse page (mem_cons_of_mem _ (hmem page hpage)),
        fun page hpage ↦ hintact.notMapped page (mem_cons_of_mem _ (hmem page hpage)),
        fun page hpage ↦ hintact.nonzero page (mem_append_left _ hpage)⟩
    have hfrees := hbelow hbase hchildIntact
    set mid := freeBelow base child state
    rw [mem_append, mem_singleton, not_or] at htable
    have hinUse : table ∉ mid.kfreed ∧ table ∉ mid.ufreed := by
      obtain ⟨hkfreed, hufreed⟩ := hintact.inUse table mem_cons_self
      have hleaf := hintact.notMapped table mem_cons_self
      rw [hfrees.kfreed, hfrees.ufreed, mem_append, mem_append]
      exact ⟨not_or.mpr ⟨hkfreed, htable.1⟩, not_or.mpr ⟨hufreed, hleaf⟩⟩
    have hnonzero : child ≠ 0 := hintact.nonzero child (by simp)
    refine ⟨(mid.write table idx 0).kfree child, ?_, ?kfreed, ?ufreed, ?stale, ?frame, ?cleared⟩
    · rw [Option.getD_some, freeChild, if_neg hnonzero]
    all_goals rw [Teardown.write, touch_of_inUse hinUse]
    case ufreed => exact hfrees.ufreed
    case stale => exact hfrees.stale
    case kfreed =>
      show mid.kfreed ++ [child] = _
      rw [hfrees.kfreed, append_assoc]
    case frame =>
      intro page idx' hpage hne
      rw [mem_append, mem_singleton, not_or] at hpage
      show store mid.memory table idx 0 page idx' = _
      rw [store_of_ne (by simpa using hne), hfrees.frame page idx' hpage.1 (.inl hpage.2)]
    case cleared =>
      intro idx' hidx'
      obtain rfl := mem_singleton.mp hidx'
      show next (store mid.memory table idx' 0 table idx') = none
      rw [store_self, next_zero]

theorem freesBelow_freeTable {shift : ℕ}
    (hbelow : FreesBelow freeBelow depth) (hshift : ∀ idx : Index, LowerBase (shifted idx shift)) :
    FreesBelow (freeTable shift freeBelow) (depth + 1) := by
  intro base table state hbase hintact
  have hround : ∀ (state : Teardown), ∀ idx ∈ entries,
      FreesEntry (freeTableEntry shift freeBelow base table state idx) state table idx
        (branch next entries state.memory depth table idx)
        (branchLeaves next userLeaf entries state.memory depth table idx) := by
    intro state idx _ hintact
    have hchildBase := hbase.or (hshift idx)
    obtain ⟨after, hcall, hfrees⟩ := freeChild_spec hbelow hchildBase hintact
    refine ⟨after, ?_, hfrees⟩
    simp only [freeTableEntry, if_neg hchildBase.not_above,
      getNextLevel_of_inUse (hintact.inUse table mem_cons_self), hcall]
  obtain ⟨after, hrun, hfrees⟩ :=
    forEntries_spec (fun _ _ _ ↦ branch_congr below_congr) [] entries state nodup_entries hround hintact
  rw [append_nil] at hrun
  rw [freeTable, hrun]
  exact hfrees

theorem freesBelow_freePud : FreesBelow freePud 2 :=
  freesBelow_freeTable (freesBelow_freeTable freesBelow_freePte lowerBase_shifted_21)
    lowerBase_shifted_30

end DionysOS.Memory.Paging
