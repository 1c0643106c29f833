import DionysOS.Filesystem.DiosfsWrite

/-!
# What writing keeps

The functions under `diosfs_write` pass an inode along, which they store on the disk now and then.
`Keeps` says that they leave its identity and its size alone, and every other inode of the disk.
-/

namespace DionysOS.Filesystem.Diosfs

open Foundation.ByteRecords Option Function
open Vfs (VnodeType DIOSFS_BLOCKSIZE NUM_BLOCKS_DIRECT)

/-- A source of blocks leaves the inodes alone. -/
def Source.KeepsInodes (source : Source) : Prop :=
  ∀ {fs number after}, source fs = some (number, after) → after.inodes = fs.inodes

theorem getFreeBlockAndMarkBitmap_keepsInodes :
    Source.KeepsInodes getFreeBlockAndMarkBitmap := by
  intro fs num after hfree
  simp only [getFreeBlockAndMarkBitmap, bind_eq_bind] at hfree
  split at hfree
  · cases hfree
  · obtain ⟨found, -, hafter⟩ := bind_eq_some_iff.mp hfree
    cases hafter
    rfl

/-- An inode in memory and the inodes on the disk, before and after: the inode keeps its identity and
its size, and no other inode is written. -/
structure Keeps (fs : Context) (inode : Inode) (after : Context) (inode' : Inode) : Prop where
  inodeNumber : inode'.inodeNumber = inode.inodeNumber
  parentInodeNumber : inode'.parentInodeNumber = inode.parentInodeNumber
  type : inode'.type = inode.type
  size : inode'.size = inode.size
  others : ∀ number ≠ inode.inodeNumber, after.inodes number = fs.inodes number

variable {source : Source} {fs after mid : Context} {inode inode' inode'' : Inode}
  {buf buf' : Bytes} {num : ℕ}

theorem Keeps.trans (hfirst : Keeps fs inode mid inode') (hsecond : Keeps mid inode' after inode'') :
    Keeps fs inode after inode'' where
  inodeNumber := hsecond.inodeNumber.trans hfirst.inodeNumber
  parentInodeNumber := hsecond.parentInodeNumber.trans hfirst.parentInodeNumber
  type := hsecond.type.trans hfirst.type
  size := hsecond.size.trans hfirst.size
  others other hother := by
    rw [hsecond.others other (by rwa [hfirst.inodeNumber]), hfirst.others other hother]

theorem Keeps.of_inodes_eq (hinodes : after.inodes = fs.inodes) : Keeps fs inode after inode :=
  ⟨rfl, rfl, rfl, rfl, fun other _ ↦ by rw [hinodes]⟩

theorem keeps_writeInode (fs : Context) (inode : Inode) : Keeps fs inode (writeInode fs inode) inode :=
  ⟨rfl, rfl, rfl, rfl, fun _ hother ↦ update_of_ne hother ..⟩

theorem inodes_of_writeBlockByNumber (hwrite : writeBlockByNumber fs num buf = some after) :
    after.inodes = fs.inodes := by
  simp only [writeBlockByNumber] at hwrite
  split at hwrite
  · cases hwrite
    rfl
  · cases hwrite

variable {result : WriteResult}

section Allocators

variable (hsource : source.KeepsInodes)

include hsource

variable {blockNumber numAllocated numToAllocate left numBlocks : ℕ} {higherOrder : Bool}

theorem inodes_of_indirectionRoot {cur : ℕ}
    (hroot : indirectionRoot source fs higherOrder blockNumber cur = some (num, after)) :
    after.inodes = fs.inodes := by
  simp only [indirectionRoot] at hroot
  split at hroot
  · cases hroot
    rfl
  · split at hroot
    · exact hsource hroot
    · cases hroot
      rfl

theorem inodes_of_fillPointers :
    ∀ {rounds idx : ℕ} {buf : Bytes} {fs : Context},
      fillPointers source rounds idx buf fs = some (buf', after) → after.inodes = fs.inodes
  | 0, _, _, _, hfill => by
      cases hfill
      rfl
  | rounds + 1, idx, buf, fs, hfill => by
      obtain ⟨⟨fresh, next⟩, hfresh, hrest⟩ := bind_eq_some_iff.mp hfill
      rw [inodes_of_fillPointers hrest, hsource hfresh]

theorem allocateSingleIndirectBlock_keeps
    (hcall : allocateSingleIndirectBlock source fs inode numAllocated numToAllocate higherOrder
      blockNumber = some (num, after, inode')) : Keeps fs inode after inode' := by
  simp only [allocateSingleIndirectBlock, bind_eq_bind] at hcall
  obtain ⟨⟨root, rooted⟩, hroot, hcall⟩ := bind_eq_some_iff.mp hcall
  obtain ⟨buf, -, hcall⟩ := bind_eq_some_iff.mp hcall
  obtain ⟨⟨buf', filled⟩, hfill, hcall⟩ := bind_eq_some_iff.mp hcall
  obtain ⟨written, hwrite, hcall⟩ := bind_eq_some_iff.mp hcall
  have hinodes : written.inodes = fs.inodes := by
    rw [inodes_of_writeBlockByNumber hwrite, inodes_of_fillPointers hsource hfill,
      inodes_of_indirectionRoot hsource hroot]
  cases hcall
  have hnamed : Keeps fs inode written (if higherOrder = false ∧ blockNumber = 0 then
      { inode with singleIndirect := root } else inode) := by
    split
    · exact ⟨rfl, rfl, rfl, rfl, fun _ _ ↦ by rw [hinodes]⟩
    · exact Keeps.of_inodes_eq hinodes
  exact hnamed.trans (keeps_writeInode ..)

omit hsource in
theorem fillTable_keeps {capacity : ℕ} {following : Bytes → ℕ → Option ℕ}
    {child : Context → Inode → ℕ → ℕ → ℕ → Option (ℕ × Context × Inode)}
    (hchild : ∀ {fs inode allocated amount block num after inode'},
      child fs inode allocated amount block = some (num, after, inode') →
        Keeps fs inode after inode') :
    ∀ {rounds idx allocated numToAllocate : ℕ} {block : Option ℕ} {buf : Bytes}
      {fs : Context} {inode : Inode},
      fillTable capacity following child rounds idx allocated numToAllocate block buf fs inode =
        some (buf', after, inode') → Keeps fs inode after inode'
  | 0, _, _, _, _, _, _, _, hfill => by
      cases hfill
      exact Keeps.of_inodes_eq rfl
  | rounds + 1, idx, allocated, numToAllocate, block, buf, fs, inode, hfill => by
      simp only [fillTable, bind_eq_bind] at hfill
      obtain ⟨block, -, hfill⟩ := bind_eq_some_iff.mp hfill
      obtain ⟨⟨fresh, next, named⟩, hnext, hfill⟩ := bind_eq_some_iff.mp hfill
      split at hfill
      · simp only [reduceCtorEq] at hfill
      · exact (hchild hnext).trans (fillTable_keeps hchild hfill)

theorem allocateDoubleIndirectBlock_keeps
    (hcall : allocateDoubleIndirectBlock source fs inode numAllocated numToAllocate higherOrder
      blockNumber = some (num, after, inode')) : Keeps fs inode after inode' := by
  simp only [allocateDoubleIndirectBlock, bind_eq_bind] at hcall
  obtain ⟨⟨root, rooted⟩, hroot, hcall⟩ := bind_eq_some_iff.mp hcall
  obtain ⟨buf, -, hcall⟩ := bind_eq_some_iff.mp hcall
  obtain ⟨⟨buf', filled, named⟩, hfill, hcall⟩ := bind_eq_some_iff.mp hcall
  obtain ⟨written, hwrite, hcall⟩ := bind_eq_some_iff.mp hcall
  cases hcall
  have hinodes := inodes_of_indirectionRoot hsource hroot
  have hnamed : Keeps fs inode rooted (if higherOrder = false ∧ blockNumber = 0 then
      { inode with doubleIndirect := root } else inode) := by
    split
    · exact ⟨rfl, rfl, rfl, rfl, fun _ _ ↦ by rw [hinodes]⟩
    · exact Keeps.of_inodes_eq hinodes
  have hfilled := fillTable_keeps (allocateSingleIndirectBlock_keeps hsource) hfill
  exact ((hnamed.trans hfilled).trans
    (Keeps.of_inodes_eq (inodes_of_writeBlockByNumber hwrite))).trans (keeps_writeInode ..)

theorem allocateTripleIndirectBlock_keeps
    (hcall : allocateTripleIndirectBlock source fs inode numAllocated numToAllocate =
      some (num, after, inode')) : Keeps fs inode after inode' := by
  simp only [allocateTripleIndirectBlock, bind_eq_bind] at hcall
  obtain ⟨⟨root, rooted⟩, hroot, hcall⟩ := bind_eq_some_iff.mp hcall
  obtain ⟨buf, -, hcall⟩ := bind_eq_some_iff.mp hcall
  obtain ⟨⟨buf', filled, named⟩, hfill, hcall⟩ := bind_eq_some_iff.mp hcall
  obtain ⟨written, hwrite, hcall⟩ := bind_eq_some_iff.mp hcall
  cases hcall
  have hinodes := inodes_of_indirectionRoot hsource hroot
  have hnamed : Keeps fs inode rooted { inode with tripleIndirect := root } :=
    ⟨rfl, rfl, rfl, rfl, fun _ _ ↦ by rw [hinodes]⟩
  have hfilled := fillTable_keeps (allocateDoubleIndirectBlock_keeps hsource) hfill
  exact (hnamed.trans hfilled).trans (Keeps.of_inodes_eq (inodes_of_writeBlockByNumber hwrite))

theorem allocateDirect_keeps :
    ∀ {rounds numBlocks left : ℕ} {fs : Context} {inode : Inode},
      allocateDirect source rounds numBlocks fs inode = some (left, after, inode') →
        Keeps fs inode after inode'
  | 0, _, _, _, _, hcall => by
      cases hcall
      exact Keeps.of_inodes_eq rfl
  | rounds + 1, numBlocks, left, fs, inode, hcall => by
      obtain ⟨⟨fresh, next⟩, hfresh, hcall⟩ := bind_eq_some_iff.mp hcall
      have hinodes := hsource hfresh
      by_cases hcount : inode.blockCount < NUM_BLOCKS_DIRECT
      · simp only [dif_pos hcount] at hcall
        have hnamed : Keeps fs inode next { inode with
            blocks := inode.blocks.set inode.blockCount fresh hcount
            blockCount := inode.blockCount + 1 } :=
          ⟨rfl, rfl, rfl, rfl, fun _ _ ↦ by rw [hinodes]⟩
        split at hcall
        · cases hcall
          exact hnamed
        · exact hnamed.trans (allocateDirect_keeps hcall)
      · simp only [dif_neg hcount, reduceCtorEq] at hcall

omit hsource in
theorem allocateAt_keeps {level : Level}
    {allocate : Context → Inode → ℕ → ℕ → Option (ℕ × Context × Inode)}
    (hallocate : ∀ {fs inode numAllocated numToAllocate num after inode'},
      allocate fs inode numAllocated numToAllocate = some (num, after, inode') →
        Keeps fs inode after inode')
    (hcall : allocateAt level allocate numBlocks fs inode = some (left, after, inode')) :
    Keeps fs inode after inode' := by
  obtain ⟨⟨num, allocated, named⟩, halloc, hcall⟩ := bind_eq_some_iff.mp hcall
  cases hcall
  have hkeeps := hallocate halloc
  exact { hkeeps with }

omit hsource in
theorem fallThrough_keeps {first : Option (ℕ × Context × Inode)}
    {rest : ℕ → Context → Inode → Option (ℕ × Context × Inode)}
    (hfirst : ∀ {left after inode'}, first = some (left, after, inode') → Keeps fs inode after inode')
    (hrest : ∀ {numBlocks fs inode left after inode'},
      rest numBlocks fs inode = some (left, after, inode') → Keeps fs inode after inode')
    (hcall : fallThrough first rest = some (left, after, inode')) : Keeps fs inode after inode' := by
  simp only [fallThrough, bind_eq_bind] at hcall
  obtain ⟨⟨numBlocks, mid, named⟩, hmiddle, hcall⟩ := bind_eq_some_iff.mp hcall
  split at hcall
  · cases hcall
    exact hfirst hmiddle
  · exact (hfirst hmiddle).trans (hrest hcall)

theorem levelThree_keeps
    (hcall : levelThree source numBlocks fs inode = some (left, after, inode')) :
    Keeps fs inode after inode' :=
  allocateAt_keeps (allocateTripleIndirectBlock_keeps hsource) hcall

theorem levelTwo_keeps (hcall : levelTwo source numBlocks fs inode = some (left, after, inode')) :
    Keeps fs inode after inode' :=
  fallThrough_keeps (allocateAt_keeps (allocateDoubleIndirectBlock_keeps hsource))
    (levelThree_keeps hsource) hcall

theorem levelOne_keeps (hcall : levelOne source numBlocks fs inode = some (left, after, inode')) :
    Keeps fs inode after inode' :=
  fallThrough_keeps (allocateAt_keeps (allocateSingleIndirectBlock_keeps hsource))
    (levelTwo_keeps hsource) hcall

theorem levelZero_keeps (hcall : levelZero source numBlocks fs inode = some (left, after, inode')) :
    Keeps fs inode after inode' :=
  fallThrough_keeps (allocateDirect_keeps hsource) (levelOne_keeps hsource) hcall

theorem inodeAllocateNewBlocks_keeps
    (hcall : inodeAllocateNewBlocks source fs inode numBlocks = some (result, after, inode')) :
    Keeps fs inode after inode' := by
  simp only [inodeAllocateNewBlocks] at hcall
  split at hcall
  · cases hcall
    exact Keeps.of_inodes_eq rfl
  · split at hcall
    · cases hcall
      exact Keeps.of_inodes_eq rfl
    · simp only [bind_eq_bind] at hcall
      obtain ⟨indices, -, hcall⟩ := bind_eq_some_iff.mp hcall
      obtain ⟨⟨left, allocated, named⟩, halloc, hcall⟩ := bind_eq_some_iff.mp hcall
      have hkeeps : Keeps fs inode allocated named := by
        generalize indices.level = level at halloc
        cases level with
        | direct => exact levelZero_keeps hsource halloc
        | single => exact levelOne_keeps hsource halloc
        | double => exact levelTwo_keeps hsource halloc
        | triple => exact levelThree_keeps hsource halloc
      split at hcall
      · simp only [reduceCtorEq] at hcall
      · cases hcall
        exact hkeeps.trans (keeps_writeInode ..)

theorem allocateFirst_spec (hcall : allocateFirst source fs inode = some (after, inode')) :
    Keeps fs inode after inode' ∧ inode'.blockCount =
      if inode.size = 0 then (inode.blockCount + 1) % 2 ^ 32 else inode.blockCount := by
  simp only [allocateFirst] at hcall
  by_cases hempty : inode.size = 0
  · simp only [if_pos hempty, bind_eq_bind] at hcall
    obtain ⟨⟨fresh, next⟩, hfresh, hcall⟩ := bind_eq_some_iff.mp hcall
    cases hcall
    simp only [writeInode_inodes, update_self, if_pos hempty]
    refine ⟨⟨rfl, rfl, rfl, rfl, fun other hother ↦ ?_⟩, trivial⟩
    rw [writeInode_inodes, update_of_ne hother, hsource hfresh]
  · rw [if_neg hempty] at hcall
    cases hcall
    exact ⟨Keeps.of_inodes_eq rfl, (if_neg hempty).symm⟩

theorem allocateUpTo_spec {endBlock : ℕ}
    (hcall : allocateUpTo source fs inode endBlock = some (after, inode')) :
    Keeps fs inode after inode' ∧ inode'.blockCount =
      if inode.blockCount < endBlock + 1 then (endBlock + 1) % 2 ^ 32 else inode.blockCount := by
  simp only [allocateUpTo] at hcall
  by_cases hfew : inode.blockCount < endBlock + 1
  · simp only [if_pos hfew, bind_eq_bind] at hcall
    obtain ⟨⟨result, allocated, named⟩, halloc, hcall⟩ := bind_eq_some_iff.mp hcall
    cases hcall
    have hkeeps := inodeAllocateNewBlocks_keeps hsource halloc
    exact ⟨{ hkeeps with }, (if_pos hfew).symm⟩
  · rw [if_neg hfew] at hcall
    cases hcall
    exact ⟨Keeps.of_inodes_eq rfl, (if_neg hfew).symm⟩

end Allocators

def MAX_LOGICAL_BLOCKS : ℕ :=
  NUM_BLOCKS_TRIPLE_INDIRECTION + NUM_BLOCKS_DOUBLE_INDIRECTION + NUM_BLOCKS_IN_INDIRECTION_BLOCK +
    NUM_BLOCKS_DIRECT

theorem maxLogicalBlocks_eq : MAX_LOGICAL_BLOCKS = 2113674 := by decide

theorem lt_of_indirectionIndices {block : ℕ} {indices : ByteOffsetIndices}
    (hindices : indirectionIndicesForBlockNumber block = some indices) :
    block < MAX_LOGICAL_BLOCKS := by
  by_contra hlarge
  have hbounds : NUM_BLOCKS_DIRECT = 10 ∧ NUM_BLOCKS_IN_INDIRECTION_BLOCK = 128 ∧
      NUM_BLOCKS_DOUBLE_INDIRECTION = 16384 ∧ NUM_BLOCKS_TRIPLE_INDIRECTION = 2097152 := by decide
  rw [maxLogicalBlocks_eq] at hlarge
  rw [indirectionIndicesForBlockNumber, if_neg (by omega), if_neg (by omega), if_neg (by omega),
    if_neg (by omega)] at hindices
  cases hindices

theorem writeLoop_spec :
    ∀ {rounds block startOffset bytesLeft : ℕ} {buf : Bytes} {fs : Context},
      writeLoop inode rounds block startOffset bytesLeft buf fs = some after →
        after.inodes = fs.inodes ∧ ∀ idx < rounds, block + idx < MAX_LOGICAL_BLOCKS
  | 0, _, _, _, _, _, hloop => by
      cases hloop
      exact ⟨rfl, fun idx hidx ↦ absurd hidx (Nat.not_lt_zero _)⟩
  | rounds + 1, block, startOffset, bytesLeft, buf, fs, hloop => by
      obtain ⟨num, hnum, hloop⟩ := bind_eq_some_iff.mp hloop
      obtain ⟨written, hwrite, hloop⟩ := bind_eq_some_iff.mp hloop
      obtain ⟨hinodes, hrest⟩ := writeLoop_spec hloop
      refine ⟨by rw [hinodes, inodes_of_writeBlockByNumber hwrite], fun idx hidx ↦ ?_⟩
      obtain ⟨indices, hindices, -⟩ := bind_eq_some_iff.mp hnum
      cases idx with
      | zero => exact lt_of_indirectionIndices hindices
      | succ idx =>
        have hlater := hrest idx (by omega)
        omega

theorem inodes_of_findDirectoryEntryAndUpdate {child dir : ℕ}
    (hupdate : findDirectoryEntryAndUpdate fs child dir = some (.ok after)) :
    after.inodes = fs.inodes := by
  simp only [findDirectoryEntryAndUpdate] at hupdate
  split at hupdate
  · cases hupdate
  · split at hupdate
    · cases hupdate
    · simp only [bind_eq_bind] at hupdate
      obtain ⟨slot, -, hupdate⟩ := bind_eq_some_iff.mp hupdate
      obtain ⟨block, -, hupdate⟩ := bind_eq_some_iff.mp hupdate
      obtain ⟨name, -, hupdate⟩ := bind_eq_some_iff.mp hupdate
      split at hupdate
      · cases hupdate
      · obtain ⟨written, hwrite, hupdate⟩ := bind_eq_some_iff.mp hupdate
        cases hupdate
        exact inodes_of_writeBlockByNumber hwrite

theorem finishWrite_spec (hfinish : finishWrite fs inode = some (result, after, inode')) :
    result = .success ∧ inode' = inode ∧ after.inodes = (writeInode fs inode).inodes := by
  obtain ⟨updated, hupdated, hfinish⟩ := bind_eq_some_iff.mp hfinish
  cases updated with
  | error _ =>
    cases hfinish
    exact ⟨rfl, rfl, rfl⟩
  | ok next =>
    cases hfinish
    exact ⟨rfl, rfl, inodes_of_findDirectoryEntryAndUpdate hupdated⟩

theorem resize_spec {oldSize off bytes : ℕ} (hsize : inode.size = oldSize)
    (hend : off + bytes < 2 ^ 32) :
    (resize oldSize off bytes inode).size = max oldSize (off + bytes) := by
  have hnew : (off + bytes) % 2 ^ 64 = off + bytes := Nat.mod_eq_of_lt (by omega)
  rw [resize, hnew]
  split
  · simp only [hsize]
    omega
  · simp only [hsize]
    omega

theorem resize_keeps (oldSize off bytes : ℕ) (inode : Inode) :
    (resize oldSize off bytes inode).inodeNumber = inode.inodeNumber ∧
      (resize oldSize off bytes inode).type = inode.type ∧
      (resize oldSize off bytes inode).blockCount = inode.blockCount := by
  rw [resize]
  split <;> exact ⟨rfl, rfl, rfl⟩

end DionysOS.Filesystem.Diosfs
