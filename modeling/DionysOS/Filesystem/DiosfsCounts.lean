import DionysOS.Filesystem.DiosfsTransfers
import DionysOS.Filesystem.DiosfsWriteFrames
import DionysOS.Foundation.PartialMachine

/-!
# Block counts of files

A write brings `block_count` up to its end block, and the allocator of blocks starts at the level
that it derives from the size. The two agree as long as the blocks that are counted hold the bytes
of the file. A write of a block or more whose parts at both ends do not fit into one block breaks
this, since its end block lies before its end; and every write of no bytes to an empty file counts a
block.
-/

namespace DionysOS.Filesystem.Diosfs

open Foundation ByteRecords PartialMachine Option
open Vfs (VnodeType DIOSFS_BLOCKSIZE NUM_BLOCKS_DIRECT)

variable {source : Source} {fs after : Context} {inode inode' : Inode} {buffer buf : Bytes}

def endBlock (offset bytes : ℕ) : ℕ :=
  offset / DIOSFS_BLOCKSIZE + numBlocksToWrite (offset % DIOSFS_BLOCKSIZE) bytes

variable {bytes offset off : ℕ} {result : WriteResult} {next state : Context × Vnode}

theorem endBlock_of_lt (off : ℕ) (hshort : bytes < DIOSFS_BLOCKSIZE) :
    endBlock off bytes = (off + bytes) / DIOSFS_BLOCKSIZE := by
  have hstart : off % DIOSFS_BLOCKSIZE < DIOSFS_BLOCKSIZE := Nat.mod_lt _ (by decide)
  rw [endBlock, numBlocksToWrite_of_lt hstart hshort]
  simp only [DIOSFS_BLOCKSIZE] at *
  omega

theorem endBlock_of_le (off : ℕ) (hlong : DIOSFS_BLOCKSIZE ≤ bytes) :
    endBlock off bytes = off / DIOSFS_BLOCKSIZE + bytes / DIOSFS_BLOCKSIZE := by
  rw [endBlock, numBlocksToWrite_of_le hlong]

theorem endBlock_bounds (off bytes : ℕ) :
    endBlock off bytes ≤ (off + bytes) / DIOSFS_BLOCKSIZE ∧
      (off + bytes) / DIOSFS_BLOCKSIZE ≤ endBlock off bytes + 1 := by
  by_cases hshort : bytes < DIOSFS_BLOCKSIZE
  · rw [endBlock_of_lt off hshort]
    omega
  · rw [endBlock_of_le off (not_lt.mp hshort)]
    simp only [DIOSFS_BLOCKSIZE]
    omega

theorem le_endBlock (hfits : bytes < DIOSFS_BLOCKSIZE ∨
      off % DIOSFS_BLOCKSIZE + bytes % DIOSFS_BLOCKSIZE ≤ DIOSFS_BLOCKSIZE) :
    off + bytes ≤ (endBlock off bytes + 1) * DIOSFS_BLOCKSIZE := by
  by_cases hshort : bytes < DIOSFS_BLOCKSIZE
  · rw [endBlock_of_lt off hshort]
    simp only [DIOSFS_BLOCKSIZE]
    omega
  · rw [endBlock_of_le off (not_lt.mp hshort)]
    simp only [DIOSFS_BLOCKSIZE] at *
    omega

/-- The block count that the allocator of blocks finds: an empty file has been given a block. -/
def countedBlocks (inode : Inode) : ℕ :=
  if inode.size = 0 then inode.blockCount + 1 else inode.blockCount

/-- What a write does to the inode of its file, in memory and on the disk. -/
structure Written (fs : Context) (inode : Inode) (offset bytes : ℕ) (after : Context)
    (inode' : Inode) : Prop where
  inodeNumber : inode'.inodeNumber = inode.inodeNumber
  type : inode'.type = inode.type
  size : inode'.size = max inode.size (offset + bytes)
  blockCount : inode'.blockCount = max (countedBlocks inode) (endBlock offset bytes + 1)
  stored : after.inodes inode.inodeNumber = inode'
  others : ∀ number ≠ inode.inodeNumber, after.inodes number = fs.inodes number

theorem writeBytesToInode_spec (hsource : source.KeepsInodes) {bufferSize : ℕ}
    (hcount : countedBlocks inode < 2 ^ 32) (hbuf : bytes ≤ bufferSize)
    (hcall : writeBytesToInode source fs inode buf bufferSize off bytes =
      some (result, after, inode')) :
    result = .success ∧ Written fs inode off bytes after inode' ∧
      endBlock off bytes < MAX_LOGICAL_BLOCKS := by
  simp only [writeBytesToInode] at hcall
  split at hcall
  · cases hcall
  rw [if_neg (not_lt.mpr hbuf)] at hcall
  split at hcall
  · cases hcall
  obtain ⟨⟨first, inode₁⟩, hfirst, hcall⟩ := bind_eq_some_iff.mp hcall
  obtain ⟨⟨grown, inode₂⟩, hgrown, hcall⟩ := bind_eq_some_iff.mp hcall
  obtain ⟨looped, hloop, hfinish⟩ := bind_eq_some_iff.mp hcall
  obtain ⟨hkeeps₁, hcount₁⟩ := allocateFirst_spec hsource hfirst
  obtain ⟨hkeeps₂, hcount₂⟩ := allocateUpTo_spec hsource hgrown
  obtain ⟨hlooped, hblocks⟩ := writeLoop_spec hloop
  obtain ⟨hsuccess, rfl, hinodes⟩ := finishWrite_spec hfinish
  obtain ⟨hnum, htype, hcount'⟩ := resize_keeps inode.size off bytes inode₂
  have hkeeps := hkeeps₁.trans hkeeps₂
  have hrange : endBlock off bytes < MAX_LOGICAL_BLOCKS := hblocks _ (Nat.lt_succ_self _)
  have hend := (endBlock_bounds off bytes).2
  rw [maxLogicalBlocks_eq] at hrange
  rw [show DIOSFS_BLOCKSIZE = 1024 from rfl] at hend
  refine ⟨hsuccess, ⟨?_, ?_, ?_, ?_, ?_, ?_⟩, by rwa [maxLogicalBlocks_eq]⟩
  · rw [hnum, hkeeps.inodeNumber]
  · rw [htype, hkeeps.type]
  · exact resize_spec hkeeps.size (by omega)
  · -- The count after the first block, and then up to the end block.
    have hfirstCount : inode₁.blockCount = countedBlocks inode := by
      rw [hcount₁, countedBlocks] at *
      split <;> rename_i hempty
      · rw [if_pos hempty] at hcount
        exact Nat.mod_eq_of_lt hcount
      · rfl
    rw [hcount', hcount₂, hfirstCount]
    change (if countedBlocks inode < endBlock off bytes + 1 then
      (endBlock off bytes + 1) % 2 ^ 32 else countedBlocks inode) = _
    split
    · rw [Nat.mod_eq_of_lt (by omega)]
      omega
    · omega
  · rw [hinodes, writeInode_inodes, hnum, hkeeps.inodeNumber, Function.update_self]
  · intro other hother
    rw [hinodes, writeInode_inodes, hnum, hkeeps.inodeNumber, Function.update_of_ne hother, hlooped]
    exact hkeeps.others other hother

def Level.base : Level → ℕ
  | .direct => 0
  | .single => NUM_BLOCKS_DIRECT
  | .double => NUM_BLOCKS_DIRECT + NUM_BLOCKS_IN_INDIRECTION_BLOCK
  | .triple => NUM_BLOCKS_DIRECT + NUM_BLOCKS_IN_INDIRECTION_BLOCK + NUM_BLOCKS_DOUBLE_INDIRECTION

/-- The local `num_allocated` at the level that the allocator chooses for an inode is what the block
count exceeds the blocks before that level by, and no more than the level can hold. -/
def LevelSound (inode : Inode) : Prop :=
  ∀ indices, indirectionIndicesForBlockNumber (endOfFile inode.size) = some indices →
    indices.level.base ≤ inode.blockCount ∧
    indices.level.numAllocated inode.blockCount = inode.blockCount - indices.level.base ∧
    indices.level.numAllocated inode.blockCount ≤ indices.level.capacity

theorem level_range {block : ℕ} {indices : ByteOffsetIndices}
    (hindices : indirectionIndicesForBlockNumber block = some indices) :
    indices.level.base ≤ block ∧ block < indices.level.base + indices.level.capacity := by
  rw [indirectionIndicesForBlockNumber] at hindices
  split_ifs at hindices <;> cases hindices <;>
    simp only [ByteOffsetIndices.level, Level.base, Level.capacity] <;> omega

theorem numAllocated_eq {level : Level} {blockCount : ℕ} (hbase : level.base ≤ blockCount)
    (hcount : blockCount < 2 ^ 32) : level.numAllocated blockCount = blockCount - level.base := by
  cases level <;> simp only [Level.numAllocated, Level.base, subtract32, subtract64] at * <;> omega

theorem levelSound_of_le (hlow : endOfFile inode.size ≤ inode.blockCount)
    (hhigh : inode.blockCount ≤ endOfFile inode.size + 1) (hcount : inode.blockCount < 2 ^ 32) :
    LevelSound inode := by
  intro indices hindices
  obtain ⟨hbase, hcapacity⟩ := level_range hindices
  have hle : indices.level.base ≤ inode.blockCount := by omega
  have heq := numAllocated_eq hle hcount
  exact ⟨hle, heq, by omega⟩

structure WriteCall where
  offset : ℕ
  buffer : Bytes
  bytes : ℕ

/-- A call of `diosfs_write` on the file of a vnode. -/
def writeStep (source : Source) (state : Context × Vnode) (call : WriteCall) :
    Option ((Context × Vnode) × WriteResult) :=
  (write source state.1 none state.2 call.offset call.buffer call.bytes).map
    fun (result, fs, vnode) ↦ ((fs, vnode), result)

/-- The inode on the disk of the file that is written. -/
def fileInode (state : Context × Vnode) : Inode := state.1.inodes state.2.vnodeInodeNumber

/-- The blocks that are counted for an inode hold its bytes, and are no more than a write to its end
would need. -/
structure Counted (inode : Inode) : Prop where
  size_lt : inode.size < 2 ^ 32
  holds : endOfFile inode.size ≤ inode.blockCount
  empty : inode.size = 0 → inode.blockCount = 0
  tight : inode.blockCount ≤ inode.size / DIOSFS_BLOCKSIZE + 1

/-- A regular file with such an inode. -/
structure CountedFile (state : Context × Vnode) : Prop where
  vnodeType : state.2.vnodeType = .file
  inodeNumber : (fileInode state).inodeNumber = state.2.vnodeInodeNumber
  counted : Counted (fileInode state)

/-- A write after which the count is right: it writes something unless the file has a size, and either
stays in the blocks that are counted, or is shorter than a block, or the parts of a block at its ends
fit into one block. -/
def KeepsCount (state : Context × Vnode) (call : WriteCall) : Prop :=
  (0 < (fileInode state).size ∨ 0 < call.bytes) ∧
    (call.offset + call.bytes ≤ (fileInode state).blockCount * DIOSFS_BLOCKSIZE ∨
      call.bytes < DIOSFS_BLOCKSIZE ∨
      call.offset % DIOSFS_BLOCKSIZE + call.bytes % DIOSFS_BLOCKSIZE ≤ DIOSFS_BLOCKSIZE)

instance (state : Context × Vnode) (call : WriteCall) : Decidable (KeepsCount state call) :=
  instDecidableAnd

theorem endOfFile_eq (size : ℕ) : endOfFile size = (size + (DIOSFS_BLOCKSIZE - 1)) / DIOSFS_BLOCKSIZE := by
  rw [endOfFile]
  split
  · simp only [DIOSFS_BLOCKSIZE] at *
    omega
  · simp only [DIOSFS_BLOCKSIZE] at *
    omega

theorem Counted.countedBlocks_le (hcounted : Counted inode) :
    countedBlocks inode ≤ inode.size / DIOSFS_BLOCKSIZE + 1 := by
  rw [countedBlocks]
  by_cases hempty : inode.size = 0
  · rw [if_pos hempty, hcounted.empty hempty]
    exact Nat.le_add_left ..
  · rw [if_neg hempty]
    exact hcounted.tight

theorem Counted.le_countedBlocks (hcounted : Counted inode) :
    endOfFile inode.size ≤ countedBlocks inode := by
  have hholds := hcounted.holds
  rw [countedBlocks]
  split <;> omega

theorem Counted.written (hcounted : Counted inode)
    (hwritten : Written fs inode off bytes after inode')
    (hrange : endBlock off bytes < MAX_LOGICAL_BLOCKS)
    (hsome : 0 < inode.size ∨ 0 < bytes)
    (hfits : off + bytes ≤ inode.blockCount * DIOSFS_BLOCKSIZE ∨ bytes < DIOSFS_BLOCKSIZE ∨
      off % DIOSFS_BLOCKSIZE + bytes % DIOSFS_BLOCKSIZE ≤ DIOSFS_BLOCKSIZE) : Counted inode' := by
  have hlow := hcounted.le_countedBlocks
  have hhigh := hcounted.countedBlocks_le
  have hend := endBlock_bounds off bytes
  have hsize := hcounted.size_lt
  have hholds : off + bytes ≤ max (countedBlocks inode) (endBlock off bytes + 1) *
      DIOSFS_BLOCKSIZE := by
    rcases hfits with hin | hfits
    · have hcount : inode.blockCount ≤ countedBlocks inode := by
        rw [countedBlocks]
        split <;> omega
      exact hin.trans (Nat.mul_le_mul_right _ (hcount.trans (le_max_left ..)))
    · exact (le_endBlock hfits).trans (Nat.mul_le_mul_right _ (le_max_right ..))
  rw [maxLogicalBlocks_eq] at hrange
  simp only [endOfFile_eq, DIOSFS_BLOCKSIZE] at *
  constructor
  · rw [hwritten.size]
    omega
  · rw [endOfFile_eq, hwritten.size, hwritten.blockCount]
    simp only [DIOSFS_BLOCKSIZE]
    omega
  · intro hempty
    rw [hwritten.size] at hempty
    omega
  · rw [hwritten.size, hwritten.blockCount]
    simp only [DIOSFS_BLOCKSIZE]
    omega

variable {call : WriteCall}

theorem writeStep_eq_some
    (htype : state.2.vnodeType = .file) (hstep : writeStep source state call = some (next, result)) :
    ∃ written inode', writeBytesToInode source state.1 (fileInode state) call.buffer call.bytes
        call.offset call.bytes = some (written, next.1, inode') ∧
      (written = .success → next.2.vnodeType = .file ∧
        next.2.vnodeInodeNumber = state.2.vnodeInodeNumber) := by
  obtain ⟨⟨status, after, vnode⟩, hwrite, hnext⟩ := map_eq_some_iff.mp hstep
  obtain ⟨rfl, rfl⟩ := Prod.mk.inj hnext
  simp only [write, htype, reduceCtorEq, if_false, false_and, bind_eq_bind] at hwrite
  obtain ⟨⟨written, after', inode'⟩, hwritten, hwrite⟩ := bind_eq_some_iff.mp hwrite
  by_cases hfailed : written ≠ .success
  · simp only [if_pos hfailed] at hwrite
    cases hwrite
    exact ⟨written, inode', hwritten, fun hsuccess ↦ absurd hsuccess hfailed⟩
  · simp only [if_neg hfailed] at hwrite
    cases hwrite
    exact ⟨written, inode', hwritten, fun _ ↦ ⟨rfl, rfl⟩⟩

theorem countedFile_step (hsource : source.KeepsInodes) (hfile : CountedFile state)
    (hmeets : KeepsCount state call) (hstep : writeStep source state call = some (next, result)) :
    CountedFile next := by
  obtain ⟨written, inode', hwrite, hnext⟩ := writeStep_eq_some hfile.vnodeType hstep
  have hcount : countedBlocks (fileInode state) < 2 ^ 32 := by
    have hle := hfile.counted.countedBlocks_le
    have hsize := hfile.counted.size_lt
    simp only [DIOSFS_BLOCKSIZE] at hle
    omega
  obtain ⟨hsuccess, hwritten, hrange⟩ := writeBytesToInode_spec hsource hcount le_rfl hwrite
  obtain ⟨htype, hnum⟩ := hnext hsuccess
  have hinode : fileInode next = inode' := by
    rw [fileInode, hnum, ← hfile.inodeNumber, hwritten.stored]
  constructor
  · exact htype
  · rw [hinode, hwritten.inodeNumber, hfile.inodeNumber, hnum]
  · rw [hinode]
    exact hfile.counted.written hwritten hrange hmeets.1 hmeets.2

/-- **Block counts are right in every run of writes that meet the condition.** In every state that
such a run reaches, the file has the blocks that its size needs. When the next write gives the inode
to the allocator of blocks, with its first block if it had none, the number of blocks that the
allocator takes for allocated at the level of the size has not wrapped around and is within the
capacity of that level. -/
theorem run_blockCounts {state final : Context × Vnode} {calls : List WriteCall}
    {results : List WriteResult} (hfile : CountedFile state)
    (hguarded : Guarded (writeStep getFreeBlockAndMarkBitmap) KeepsCount state calls)
    (hrun : run (writeStep getFreeBlockAndMarkBitmap) state calls = some (final, results)) :
    ((fileInode final).size + (DIOSFS_BLOCKSIZE - 1)) / DIOSFS_BLOCKSIZE ≤
        (fileInode final).blockCount ∧
      ∀ fs inode, allocateFirst getFreeBlockAndMarkBitmap final.1 (fileInode final) =
        some (fs, inode) → LevelSound inode := by
  have hfinal : CountedFile final := run_preserves (fun _ _ _ _ hfile hmeets hstep ↦
    countedFile_step getFreeBlockAndMarkBitmap_keepsInodes hfile hmeets hstep) hfile hguarded hrun
  have hcounted := hfinal.counted
  constructor
  · rw [← endOfFile_eq]
    exact hcounted.holds
  · intro fs inode hfirst
    obtain ⟨hkeeps, hcount⟩ := allocateFirst_spec getFreeBlockAndMarkBitmap_keepsInodes hfirst
    have hlow := hcounted.le_countedBlocks
    have hhigh := hcounted.countedBlocks_le
    have hsize := hcounted.size_lt
    have hsame : inode.blockCount = countedBlocks (fileInode final) := by
      rw [hcount, countedBlocks]
      split <;> rename_i hempty
      · rw [hcounted.empty hempty, Nat.mod_eq_of_lt (by decide)]
      · rfl
    rw [endOfFile_eq] at hlow
    apply levelSound_of_le <;> rw [hsame]
    · rwa [hkeeps.size, endOfFile_eq]
    · rw [hkeeps.size, endOfFile_eq]
      simp only [DIOSFS_BLOCKSIZE] at *
      omega
    · simp only [DIOSFS_BLOCKSIZE] at *
      omega

/-- A disk whose root holds one empty file, with inode 1. The entry of the file is in block 0. -/
def emptyFile : Context where
  superblock := ⟨1, 1, 1, 1⟩
  deviceMinor := 0
  numBlocks := 8192
  inodeBitmap := fun number ↦ number < 2
  blockBitmap := fun number ↦ number == 0
  inodes := fun number ↦
    if number = 0 then { Inode.zero with size := 1, blockCount := 1 }
    else { Inode.zero with inodeNumber := number, type := typeCode .file }
  blocks := fun _ ↦ setEntry (fun _ ↦ 0) 0 ⟨fun _ ↦ 0, 1, 0, typeCode .file, 0, 0⟩

def emptyFileVnode : Vnode := ⟨.diosfs, .file, 1, 0⟩

theorem countedFile_emptyFile : CountedFile (emptyFile, emptyFileVnode) :=
  ⟨rfl, rfl, by decide, by decide, by decide, by decide⟩

def zerosAt (offset bytes : ℕ) : WriteCall := ⟨offset, fun _ ↦ 0, bytes⟩

theorem run_blockCounts_threeWrites :
    CountedFile (emptyFile, emptyFileVnode) ∧
    ∃ final results,
      run (writeStep getFreeBlockAndMarkBitmap) (emptyFile, emptyFileVnode)
        [zerosAt 0 1000, zerosAt 1000 500, zerosAt 1500 2500] = some (final, results) ∧
      ((fileInode final).size + (DIOSFS_BLOCKSIZE - 1)) / DIOSFS_BLOCKSIZE ≤
        (fileInode final).blockCount := by
  refine ⟨countedFile_emptyFile, exists_of_any (fun _ _ ↦ True) (by decide +kernel) ?_⟩
  intro final results hrun _
  exact (run_blockCounts countedFile_emptyFile (by decide +kernel) hrun).1

/-- 1000 bytes, and then 1124 behind them: the file has 2124 bytes, but two blocks. With 8292 bytes
behind them it has 9292 bytes and nine blocks: the level of its size is the one of the indirect block,
and the difference between its block count and the ten direct blocks wraps around. -/
theorem run_not_blockCounts :
    CountedFile (emptyFile, emptyFileVnode) ∧
    (∃ final results, run (writeStep getFreeBlockAndMarkBitmap) (emptyFile, emptyFileVnode)
        [zerosAt 0 1000, zerosAt 1000 1124] = some (final, results) ∧
      (fileInode final).size = 2124 ∧ (fileInode final).blockCount = 2) ∧
    (∃ final results, run (writeStep getFreeBlockAndMarkBitmap) (emptyFile, emptyFileVnode)
        [zerosAt 0 1000, zerosAt 1000 8292] = some (final, results) ∧
      (fileInode final).size = 9292 ∧ (fileInode final).blockCount = 9 ∧
      ¬LevelSound (fileInode final)) ∧
    Level.single.numAllocated 9 = 2 ^ 32 - 1 := by
  refine ⟨countedFile_emptyFile, exists_of_any _ (by decide +kernel) fun _ _ _ hcounts ↦ hcounts,
    exists_of_any (fun final _ ↦ (fileInode final).size = 9292 ∧ (fileInode final).blockCount = 9)
      (by decide +kernel) ?_, by decide⟩
  rintro final - - ⟨hsize, hcount⟩
  refine ⟨hsize, hcount, fun hsound ↦ ?_⟩
  have hbase := (hsound (.single 0) (by rw [hsize]; decide)).1
  rw [hcount] at hbase
  exact absurd hbase (by decide)

end DionysOS.Filesystem.Diosfs
