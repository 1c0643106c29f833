import DionysOS.Memory.FreePageTables

/-!
# Freeing an address space: the whole table

`free_page_tables` frees the lower half of a tree of tables: each user page and each table once, and
nothing of the upper half. The one exception is a table at the physical address 0, whose address
`get_next_level` cannot tell from `NULL`: it and all that is below it stay.
-/

namespace DionysOS.Memory.Paging

open Foundation.RadixTable List Option

/-- The tables are a tree: each is referred to once, and no user entry of the lower half refers to
one. -/
structure TableTree (memory : TableMemory) (pgdir : Word) : Prop where
  distinct : TablesDistinct next memory pgdir 3
  notMapped : ∀ page ∈ lowerLeaves memory pgdir, ∀ path : List Index, path.length ≤ 3 →
    reach next memory pgdir path ≠ some page

/-- The state after the lower half was freed. -/
structure TornDown (memory : TableMemory) (pgdir : Word) (after : Teardown) : Prop where
  /-- One call of `ufree` for each user entry of the lower half. -/
  ufreed : after.ufreed = lowerLeaves memory pgdir
  /-- One call of `kfree` for each table of the lower half. -/
  kfreed : after.kfreed.Nodup ∧ ∀ table, table ∈ after.kfreed ↔ ∃ (index : Index) (path : List Index),
    index.val < 256 ∧ path.length ≤ 2 ∧ reach next memory pgdir (index :: path) = some table
  unmapped : ∀ va, (P4DX va).val < 256 → translation after.memory pgdir va = none
  /-- The upper half is as it was, and so are its tables. -/
  upper : ∀ index : Index, 256 ≤ index.val → after.memory pgdir index = memory pgdir index ∧
    ∀ (path : List Index) (table : Word), path.length ≤ 2 →
      reach next memory pgdir (index :: path) = some table →
        table ∉ after.kfreed ∧ table ∉ after.ufreed ∧ after.memory table = memory table
  top : pgdir ∉ after.kfreed ∧ pgdir ∉ after.ufreed
  /-- No table was used after it was freed. -/
  stale : after.stale = []

variable {memory mem : TableMemory} {pgdir page pud : Word} {state : Teardown}

theorem mem_lowerTables {table : Word} :
    table ∈ lowerTables mem pgdir ↔ ∃ (idx : Index) (path : List Index),
      idx.val < 256 ∧ path.length ≤ 2 ∧ reach next mem pgdir (idx :: path) = some table := by
  simp only [lowerTables, mem_flatMap, mem_lowerHalf, mem_branch_iff_reach mem_entries,
    exists_and_left]

theorem mem_lowerLeaves :
    page ∈ lowerLeaves mem pgdir ↔ ∃ (idx : Index) (path : List Index) (last : Index) (table : Word),
      idx.val < 256 ∧ path.length = 2 ∧ reach next mem pgdir (idx :: path) = some table ∧
        userLeaf (mem table last) = some page := by
  simp only [lowerLeaves, mem_flatMap, mem_lowerHalf, mem_branchLeaves, mem_leaves mem_entries]
  constructor
  · rintro ⟨idx, hidx, child, hchild, path, last, table, hlen, hreach, hleaf⟩
    exact ⟨idx, path, last, table, hidx, hlen, by rw [reach, hchild, bind_some, hreach],
      hleaf⟩
  · rintro ⟨idx, path, last, table, hidx, hlen, hreach, hleaf⟩
    rw [reach, bind_eq_some_iff] at hreach
    obtain ⟨child, hchild, hreach⟩ := hreach
    exact ⟨idx, hidx, child, hchild, path, last, table, hlen, hreach, hleaf⟩

theorem translation_of_absent {va : Word}
    (habsent : next (mem pgdir (P4DX va)) = none) : translation mem pgdir va = none := by
  have hzero : mem pgdir (P4DX va) &&& PTE_P = 0 := by
    by_contra hpresent
    rw [next, if_neg hpresent] at habsent
    cases habsent
  have hflags : ¬(0 : Word) &&& ALLOC ≠ 0 := by decide
  rw [translation, walkPageDirectory]
  split
  · rfl
  · rw [descend, if_pos hzero, if_neg hflags]
    rfl

theorem freeTopEntry_spec {idx : Index} (hidx : idx ∈ lowerHalf) :
    FreesEntry (freeTopEntry pgdir state idx) state pgdir idx
      (branch next entries state.memory 2 pgdir idx)
      (branchLeaves next userLeaf entries state.memory 2 pgdir idx) := by
  intro hintact
  have hbase := lowerBase_shifted_39 idx hidx
  obtain ⟨after, hcall, hfrees⟩ := freeChild_spec freesBelow_freePud hbase hintact
  refine ⟨after, ?_, hfrees⟩
  simp only [freeTopEntry, if_neg hbase.not_above,
    getNextLevel_of_inUse (hintact.inUse pgdir mem_cons_self), hcall]

theorem forEntries_upper
    (hinUse : pgdir ∉ state.kfreed ∧ pgdir ∉ state.ufreed) (rest : List Index) :
    forEntries (freeTopEntry pgdir) ((256 : Index) :: rest) state = state := by
  have hbreak : USER_STACK_TOP < shifted 256 39 := by decide
  simp only [forEntries, freeTopEntry, getNextLevel_of_inUse hinUse, if_pos hbreak, Bool.false_eq_true,
    if_false]

/-- **Freeing an address space.** If the tables are a tree and none of the lower half is at address 0,
then the lower half is freed, once, and nothing else. -/
theorem freePageTables_tornDown {memory : TableMemory} {pgdir : Word} (htree : TableTree memory pgdir)
    (hnonzero : ∀ table ∈ lowerTables memory pgdir, table ≠ 0) :
    TornDown memory pgdir (freePageTables pgdir ⟨memory, [], [], []⟩) := by
  have hnodup : (pgdir :: lowerTables memory pgdir).Nodup :=
    nodup_flatMap_of_branch mem_entries htree.distinct
      (nodup_branch mem_entries nodup_entries htree.distinct) nodup_lowerHalf
  have hreached : ∀ table ∈ pgdir :: lowerTables memory pgdir, ∃ path : List Index,
      path.length ≤ 3 ∧ reach next memory pgdir path = some table := by
    intro table htable
    rcases mem_cons.mp htable with rfl | htable
    · exact ⟨[], Nat.zero_le _, rfl⟩
    · obtain ⟨idx, path, -, hlen, hreach⟩ := mem_lowerTables.mp htable
      exact ⟨idx :: path, Nat.succ_le_succ hlen, hreach⟩
  have hnotMapped : ∀ table ∈ pgdir :: lowerTables memory pgdir, table ∉ lowerLeaves memory pgdir := by
    intro table htable hleaf
    obtain ⟨path, hlen, hreach⟩ := hreached table htable
    exact htree.notMapped table hleaf path hlen hreach
  have hintact : Intact ⟨memory, [], [], []⟩ pgdir (lowerTables memory pgdir)
      (lowerLeaves memory pgdir) := ⟨hnodup, by simp, hnotMapped, hnonzero⟩
  obtain ⟨after, hrun, hfrees⟩ := forEntries_spec (fun _ _ _ ↦ branch_congr below_congr)
    ((256 : Index) :: entries.drop 257) lowerHalf ⟨memory, [], [], []⟩ nodup_lowerHalf
    (fun _ _ hidx ↦ freeTopEntry_spec hidx) hintact
  have hkfreed : after.kfreed = lowerTables memory pgdir := by
    rw [hfrees.kfreed, lowerTables, nil_append]
  have hufreed : after.ufreed = lowerLeaves memory pgdir := by
    rw [hfrees.ufreed, lowerLeaves, nil_append]
  have htop : pgdir ∉ after.kfreed ∧ pgdir ∉ after.ufreed := by
    rw [hkfreed, hufreed]
    exact ⟨(nodup_cons.mp hnodup).1, hnotMapped pgdir mem_cons_self⟩
  rw [freePageTables, entries_eq, hrun, forEntries_upper htop]
  refine ⟨hufreed, ⟨hkfreed ▸ (nodup_cons.mp hnodup).2, ?kfreed⟩, ?unmapped, ?upper, htop,
    hfrees.stale⟩
  case kfreed =>
    intro table
    rw [hkfreed, mem_lowerTables]
  case unmapped =>
    intro va hva
    exact translation_of_absent (hfrees.cleared _ ((mem_lowerHalf _).mpr hva))
  case upper =>
    intro idx hidx
    have hnotLower : idx ∉ lowerHalf := fun h ↦ by
      have := (mem_lowerHalf idx).mp h
      omega
    refine ⟨hfrees.frame pgdir idx (nodup_cons.mp hnodup).1 (.inr hnotLower), ?_⟩
    intro path table hlen hreach
    have hlen' : (idx :: path).length ≤ 3 := Nat.succ_le_succ hlen
    have hnotFreed : table ∉ lowerTables memory pgdir := by
      intro h
      obtain ⟨idx', path', hidx', hpath', hreach'⟩ := mem_lowerTables.mp h
      have hsame := htree.distinct hlen' (show (idx' :: path').length ≤ 3 from Nat.succ_le_succ hpath') hreach
        hreach'
      have := congrArg Fin.val (cons.inj hsame).1
      omega
    have hne : table ≠ pgdir := by
      rintro rfl
      exact cons_ne_nil _ _ (htree.distinct hlen' (Nat.zero_le _) hreach reach_nil)
    rw [hkfreed, hufreed]
    exact ⟨hnotFreed, fun h ↦ htree.notMapped table h _ hlen' hreach,
      funext fun i ↦ hfrees.frame table i hnotFreed (.inl hne)⟩

theorem freePageTables_of_null
    (hnull : ∀ idx ∈ lowerHalf, (next (mem pgdir idx)).getD 0 = 0) :
    freePageTables pgdir ⟨mem, [], [], []⟩ = ⟨mem, [], [], []⟩ := by
  have hlevel := @getNextLevel_of_inUse ⟨mem, [], [], []⟩ pgdir (by simp)
  have hskip : ∀ (indices rest : List Index), (∀ idx ∈ indices, idx ∈ lowerHalf) →
      forEntries (freeTopEntry pgdir) (indices ++ rest) ⟨mem, [], [], []⟩ =
        forEntries (freeTopEntry pgdir) rest ⟨mem, [], [], []⟩ := by
    intro indices rest hindices
    induction indices with
    | nil => rfl
    | cons idx indices ih =>
      obtain ⟨hidx, hrest⟩ := forall_mem_cons.mp hindices
      have hround : freeTopEntry pgdir ⟨mem, [], [], []⟩ idx = (⟨mem, [], [], []⟩, true) := by
        simp only [freeTopEntry, hlevel, hnull idx hidx, freeChild, if_true,
          if_neg (lowerBase_shifted_39 idx hidx).not_above]
      simp only [cons_append, forEntries, hround, if_true]
      exact ih hrest
  rw [freePageTables, entries_eq, hskip _ _ fun _ h ↦ h]
  exact forEntries_upper (by simp) _

/-- The top level at `0x1000`, one table on each level, and one user page. -/
def onePage (pud : Word) : TableMemory := fun table index ↦
  if index ≠ 0 then 0
  else if table = 0x1000 then pud ||| PTE_P
  else if table = pud then 0x3000 ||| PTE_P
  else if table = 0x3000 then 0x4000 ||| PTE_P
  else if table = 0x4000 then 0x5000 ||| (PTE_P ||| PTE_U)
  else 0

theorem reach_onePage {pud : Word} : ∀ {path : List Index} {table page : Word} {tables : List Word},
    (table :: tables).IsChain (fun table child ↦ next (onePage pud table 0) = some child) →
    path.length ≤ tables.length → reach next (onePage pud) table path = some page →
      path = replicate path.length 0 ∧ (table :: tables)[path.length]? = some page
  | [], _, _, _, _, _, hreach => ⟨rfl, hreach⟩
  | idx :: path, table, page, [], _, hlen, _ => absurd hlen (by simp)
  | idx :: path, table, page, child :: tables, hchain, hlen, hreach => by
      obtain ⟨hchild, hchain⟩ := isChain_cons_cons.mp hchain
      obtain rfl : idx = 0 := by
        by_contra hidx
        rw [reach, onePage, if_pos hidx, next_zero] at hreach
        cases hreach
      rw [reach, hchild, bind_some] at hreach
      obtain ⟨hpath, hpage⟩ := reach_onePage hchain (Nat.le_of_succ_le_succ hlen) hreach
      exact ⟨congrArg (cons 0) hpath, hpage⟩

theorem lowerLeaves_onePage (hchain : [0x1000, pud, 0x3000, 0x4000].IsChain
    (fun table child ↦ next (onePage pud table 0) = some child))
    (hpage : page ∈ lowerLeaves (onePage pud) 0x1000) :
    userLeaf (onePage pud 0x4000 0) = some page := by
  obtain ⟨idx, path, last, table, -, hlen, hreach, hleaf⟩ := mem_lowerLeaves.mp hpage
  have hlast := (reach_onePage hchain (by simp [hlen]) hreach).2
  rw [length_cons, hlen] at hlast
  obtain rfl : 0x4000 = table := some.inj hlast
  obtain rfl : last = 0 := by
    by_contra hlast
    rw [onePage, if_pos hlast] at hleaf
    cases hleaf
  exact hleaf

theorem tableTree_onePage (hchain : [0x1000, pud, 0x3000, 0x4000].IsChain
      (fun table child ↦ next (onePage pud table 0) = some child))
    (hnodup : [0x1000, pud, 0x3000, 0x4000].Nodup)
    (hleaf : userLeaf (onePage pud 0x4000 0) = some 0x5000)
    (hnotTable : 0x5000 ∉ [0x1000, pud, 0x3000, 0x4000]) :
    TableTree (onePage pud) 0x1000 where
  distinct path path' page hlen hlen' hreach hreach' := by
    obtain ⟨hpath, hpage⟩ := reach_onePage hchain hlen hreach
    obtain ⟨hpath', hpage'⟩ := reach_onePage hchain hlen' hreach'
    have hsame : path.length = path'.length := by
      refine (getElem?_inj ?_ hnodup).mp (hpage.trans hpage'.symm)
      simp only [length_cons, length_nil]
      omega
    rw [hpath, hpath', hsame]
  notMapped page hpage path hlen hreach := by
    obtain rfl := some.inj (hleaf.symm.trans (lowerLeaves_onePage hchain hpage))
    exact hnotTable (mem_of_getElem? (reach_onePage hchain hlen hreach).2)

theorem freePageTables_onePage :
    TornDown (onePage 0x2000) 0x1000 (freePageTables 0x1000 ⟨onePage 0x2000, [], [], []⟩) ∧
      0x5000 ∈ (freePageTables 0x1000 ⟨onePage 0x2000, [], [], []⟩).ufreed ∧
      0x2000 ∈ (freePageTables 0x1000 ⟨onePage 0x2000, [], [], []⟩).kfreed := by
  have hchain : [0x1000, 0x2000, 0x3000, 0x4000].IsChain
    (fun table child ↦ next (onePage 0x2000 table 0) = some child) := by decide
  have hnonzero : ∀ table ∈ lowerTables (onePage 0x2000) 0x1000, table ≠ 0 := by
    intro table htable
    obtain ⟨idx, path, -, hlen, hreach⟩ := mem_lowerTables.mp htable
    have hlen' : (idx :: path).length ≤ 3 := Nat.succ_le_succ hlen
    have hmem := mem_of_getElem? (reach_onePage hchain hlen' hreach).2
    rintro rfl
    exact absurd hmem (by decide)
  have htree := tableTree_onePage hchain (by decide) (by decide) (by decide)
  have htorn := freePageTables_tornDown htree hnonzero
  refine ⟨htorn, ?_, ?_⟩
  · rw [htorn.ufreed]
    exact mem_lowerLeaves.mpr ⟨0, [0, 0], 0, 0x4000, by decide, rfl, by decide, by decide⟩
  · exact (htorn.kfreed.2 _).mpr ⟨0, [], by decide, by decide, by decide⟩

/-- A table at address 0 is not found: the page behind it stays mapped. -/
theorem freePageTables_not_tornDown : TableTree (onePage 0) 0x1000 ∧
    (0x5000 : Word) ∈ lowerLeaves (onePage 0) 0x1000 ∧
    (freePageTables 0x1000 ⟨onePage 0, [], [], []⟩).ufreed = [] ∧
    (freePageTables 0x1000 ⟨onePage 0, [], [], []⟩).kfreed = [] ∧
    translation (freePageTables 0x1000 ⟨onePage 0, [], [], []⟩).memory 0x1000 0 =
      some (0x5000 ||| (PTE_P ||| PTE_U)) := by
  have hnull : ∀ idx ∈ lowerHalf, (next (onePage 0 0x1000 idx)).getD 0 = 0 := by
    intro idx _
    rw [onePage]
    split <;> decide
  rw [freePageTables_of_null hnull]
  refine ⟨tableTree_onePage (by decide) (by decide) (by decide) (by decide), ?_, rfl, rfl, by decide⟩
  exact mem_lowerLeaves.mpr ⟨0, [0, 0], 0, 0x4000, by decide, rfl, by decide, by decide⟩

end DionysOS.Memory.Paging
