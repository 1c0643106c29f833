import DionysOS.Memory.PmmBooks

/-!
# `phys_init` partitions memory

Every page of the usable ranges ends up in one block of the maximal order or once in the list of
spare pages, and nothing else does. Three paths collect spare pages: a range that is shorter than a
block, the rest of a range behind its last block, and no pages at all behind a range that the blocks
fill. All three leave `sparePages range (pages / 2 ^ MAX_ORDER * 2 ^ MAX_ORDER)`.

The loop that files the blocks compares `zone` with the number of a range while it overwrites that
field with the number of a pool. It never compares a field that it has overwritten, because it
moves on to the next block right after the write.
-/

namespace DionysOS.Memory.Pmm

open DataStructures List
open DataStructures.SinglyLinkedList (NodeStore)

variable {entries : List MemmapEntry}

/-- The usable pages are divided into the blocks at the descriptors `blocks` and the spare pages,
and the blocks are filed by their addresses. -/
structure Partitioned (entries : List MemmapEntry) (state : State) (blocks : List Ptr) : Prop where
  /-- Every usable page is in exactly one block or once on the list, and no other page is. -/
  pages : blocks.flatMap (fun block ↦
      pagesFrom (state.blocks block).startAddress (2 ^ (state.blocks block).order)) ++
    state.sparePageList ~ usablePages entries
  nodup : (usablePages entries).Nodup
  order : ∀ block ∈ blocks, (state.blocks block).order = MAX_ORDER
  zone : ∀ block ∈ blocks, (state.blocks block).zone =
    if (state.blocks block).startAddress > userSpanSize (highestAddress entries) then KERNEL_POOL
    else USER_POOL
  /-- Every block is in the tree of its zone once, under `MAX_ORDER`, and nothing else is. -/
  trees : ∀ zone key, state.buddyFreeListZone zone key =
    if key = MAX_ORDER then blocks.filter fun block ↦ (state.blocks block).zone == zone else []
  distinct : blocks.Nodup

/-- **`phys_init` partitions memory.** For every map that `phys_init` has room for it returns, and
leaves the usable pages partitioned into blocks and spare pages. -/
theorem physInit_partitioned {pool : List Ptr} {lists : NodeStore}
    (hready : SinglyLinkedList.Ready pool lists) (hmap : WellFormedMap entries)
    (haccepts : Accepts entries) :
    ∃ state blocks, physInit pool lists entries = some state ∧ Partitioned entries state blocks := by
  obtain ⟨state, hinit⟩ := physInit_returns hready haccepts
  obtain ⟨ranges, cut, lists', filed, hbooted⟩ := physInit_booted hready hmap hinit
  obtain ⟨table, rfl, -⟩ := hbooted.table
  let blocks := range' 1 (blocksOf ranges).length
  have hfiling := hbooted.filing
  have hrange : ∀ block : ℕ, block ∈ blocks → 0 < block ∧ block ≤ (blocksOf ranges).length := by
    intro block hblock
    have := mem_range'_1.mp hblock
    omega
  have hhdr : ∀ block ∈ blocks, (filed.blocks block).order = MAX_ORDER ∧
      (filed.blocks block).zone =
        zoneOf (userSpanSize (highestAddress entries)) (filed.blocks block).startAddress := by
    intro block hblock
    obtain ⟨hpos, hle⟩ := hrange block hblock
    obtain ⟨num, start, hmade, -⟩ :=
      (unfiled_unfiledState hbooted.made hmap hmap.cutsRoom hbooted.sorted lists').header block
        hpos hle
    rw [hfiling.blocks, if_pos ⟨hpos, hle⟩]
    exact ⟨hmade.order, rfl⟩
  refine ⟨_, blocks, hinit, ?_, hmap.nodup_usablePages, fun block hblock ↦ (hhdr block hblock).1,
    fun block hblock ↦ (hhdr block hblock).2, fun zone key ↦ ?_, nodup_range'⟩
  · -- The blocks and the spare pages, range by range.
    have hspare : filed.sparePageList ~ ranges.zipIdx.flatMap fun one ↦ spareOf one.1 := by
      have hmakes := cutRanges_yields ranges
      rw [hbooted.cutAll] at hmakes
      rw [(foldlM_fileRange_frame _ hbooted.fileAll).1]
      exact (Perm.of_eq hmakes.2).trans (ranges.zipIdx.reverse_perm.flatMap_right _)
    calc blocks.flatMap (fun block ↦
          pagesFrom (filed.blocks block).startAddress (2 ^ (filed.blocks block).order)) ++
            filed.sparePageList
        ~ (blocksOf ranges).flatMap (fun block ↦ pagesFrom block.2 (2 ^ MAX_ORDER)) ++
            ranges.zipIdx.flatMap fun one ↦ spareOf one.1 := by
          rw [hfiling.pages hbooted.made]
          exact hspare.append_left _
      _ ~ usablePages entries := blocksOf_partition hbooted.sorted
  · refine (hfiling.trees zone key).trans ?_
    split
    · refine filter_congr fun block hblock ↦ ?_
      have hzone := (hhdr block hblock).2
      have hstart : ((unfiledState cut lists').blocks block).startAddress =
          (filed.blocks block).startAddress := by
        rw [hfiling.blocks, if_pos (hrange block hblock)]
      rw [hstart, ← hzone]
    · rfl

/-- Two usable ranges, of one block and one page and of three pages. -/
theorem physInit_partitioned_twoRanges :
    ∃ state blocks, physInit eightNodes SinglyLinkedList.bootStore
        [⟨0x3000000, 0x3000, .usable⟩, ⟨0x2000000, 0x1000, .kernelAndModules⟩,
          ⟨0x1000000, 0x401000, .usable⟩] = some state ∧
      Partitioned [⟨0x3000000, 0x3000, .usable⟩, ⟨0x2000000, 0x1000, .kernelAndModules⟩,
        ⟨0x1000000, 0x401000, .usable⟩] state blocks :=
  physInit_partitioned ready_eightNodes ⟨by decide, by decide⟩
    ⟨by decide, by decide, by decide⟩

end DionysOS.Memory.Pmm
