import DionysOS.Filesystem.DiosfsRead
import DionysOS.Filesystem.DiosfsRename

/-!
# Writing files in diosfs

`diosfs_write` with what it calls: `diosfs_write_bytes_to_inode`, and
`diosfs_inode_allocate_new_blocks` with the allocators for the three levels of pointer blocks.

Fresh blocks come from a parameter, `source`; in the kernel it is
`diosfs_get_free_block_and_mark_bitmap`. The counters are unsigned numbers of 32 or 64 bits, and
every subtraction may wrap around. The pointers of a block are edited in a page that was allocated
for it: a pointer behind the block is memory that was never written, so that using it is `none`.
-/

namespace DionysOS.Filesystem.Diosfs

open Foundation.ByteRecords
open Vfs (VnodeType DIOSFS_BLOCKSIZE NUM_BLOCKS_DIRECT)

/-- `minuend - subtrahend` in 64 bits. -/
def subtract64 (minuend subtrahend : ℕ) : ℕ := (minuend + 2 ^ 64 - subtrahend) % 2 ^ 64

/-- `minuend - subtrahend` in 32 bits; the subtrahend may have 64. -/
def subtract32 (minuend subtrahend : ℕ) : ℕ := (minuend + 2 ^ 64 - subtrahend) % 2 ^ 32

def MAX_BLOCKS_IN_INODE : ℕ :=
  NUM_BLOCKS_DIRECT * DIOSFS_BLOCKSIZE * NUM_BLOCKS_IN_INDIRECTION_BLOCK *
    NUM_BLOCKS_IN_INDIRECTION_BLOCK * NUM_BLOCKS_IN_INDIRECTION_BLOCK

abbrev Source := Context → Option (ℕ × Context)

/-- The pointer with an index in a page that holds a pointer block. -/
def pointerAt (buffer : Bytes) (index : ℕ) : Option ℕ :=
  if index < NUM_BLOCKS_IN_INDIRECTION_BLOCK then some (load buffer 8 (8 * index)) else none

/-- The choice of the pointer block to work on, at the start of the allocators: the one that is
named, the one of the inode, or a fresh one. -/
def indirectionRoot (source : Source) (fs : Context) (higherOrder : Bool)
    (blockNumber current : ℕ) : Option (ℕ × Context) :=
  if blockNumber ≠ 0 then some (blockNumber, fs)
  else if higherOrder ∨ current = 0 then source fs
  else some (current, fs)

/-- The loop of `diosfs_allocate_single_indirect_block`, with a number of rounds to go. -/
def fillPointers (source : Source) : ℕ → ℕ → Bytes → Context → Option (Bytes × Context)
  | 0, _, buffer, fs => some (buffer, fs)
  | rounds + 1, index, buffer, fs => do
      let (number, fs) ← source fs
      fillPointers source rounds (index + 1) (store buffer 8 (8 * index) number) fs

/-- `diosfs_allocate_single_indirect_block`. It cuts the number of blocks down to what fits. -/
def allocateSingleIndirectBlock (source : Source) (fs : Context) (inode : Inode)
    (numAllocated numToAllocate : ℕ) (higherOrder : Bool) (blockNumber : ℕ) :
    Option (ℕ × Context × Inode) := do
  let numToAllocate :=
    if NUM_BLOCKS_IN_INDIRECTION_BLOCK ≤ (numAllocated + numToAllocate) % 2 ^ 64 then
      subtract64 NUM_BLOCKS_IN_INDIRECTION_BLOCK numAllocated
    else numToAllocate
  let (singleIndirect, fs) ← indirectionRoot source fs higherOrder blockNumber inode.singleIndirect
  let inode :=
    if higherOrder = false ∧ blockNumber = 0 then { inode with singleIndirect := singleIndirect }
    else inode
  let buffer ← readBlockByNumber fs singleIndirect
  let (buffer, fs) ← fillPointers source ((numToAllocate + numAllocated) % 2 ^ 64 - numAllocated)
    numAllocated buffer fs
  let fs ← writeBlockByNumber fs singleIndirect buffer
  some (singleIndirect, writeInode fs inode, inode)

/-- The loop of the allocators for the two higher levels, with a number of rounds to go. A round
allocates up to `capacity` blocks below the pointer with an index: `child` does this, and it is
given what `following` says of the pointer. -/
def fillTable (capacity : ℕ) (following : Bytes → ℕ → Option ℕ)
    (child : Context → Inode → ℕ → ℕ → ℕ → Option (ℕ × Context × Inode)) :
    ℕ → ℕ → ℕ → ℕ → Option ℕ → Bytes → Context → Inode → Option (Bytes × Context × Inode)
  | 0, _, _, _, _, buffer, fs, inode => some (buffer, fs, inode)
  | rounds + 1, index, allocated, numToAllocate, block, buffer, fs, inode => do
      let amount := if numToAllocate < capacity then numToAllocate else capacity
      let block ← block
      let (number, fs, inode) ← child fs inode allocated amount block
      if PAGE_SIZE / 8 ≤ index then none
      else
        let buffer := store buffer 8 (8 * index) number
        fillTable capacity following child rounds (index + 1) 0 (numToAllocate - amount)
          (following buffer (index + 1)) buffer fs inode

/-- How many rounds it takes to allocate a number of blocks. -/
def tableRounds (capacity numToAllocate : ℕ) : ℕ := (numToAllocate + (capacity - 1)) / capacity

def allocateDoubleIndirectBlock (source : Source) (fs : Context) (inode : Inode)
    (numAllocated numToAllocate : ℕ) (higherOrder : Bool) (blockNumber : ℕ) :
    Option (ℕ × Context × Inode) := do
  let (doubleIndirect, fs) ← indirectionRoot source fs higherOrder blockNumber inode.doubleIndirect
  let inode :=
    if higherOrder = false ∧ blockNumber = 0 then { inode with doubleIndirect := doubleIndirect }
    else inode
  let buffer ← readBlockByNumber fs doubleIndirect
  let index := numAllocated / NUM_BLOCKS_IN_INDIRECTION_BLOCK
  let allocated := numAllocated % NUM_BLOCKS_IN_INDIRECTION_BLOCK
  let block := if 0 < numAllocated then pointerAt buffer index else some 0
  let (buffer, fs, inode) ← fillTable NUM_BLOCKS_IN_INDIRECTION_BLOCK pointerAt
    (fun fs inode allocated amount block ↦
      allocateSingleIndirectBlock source fs inode allocated amount true block)
    (tableRounds NUM_BLOCKS_IN_INDIRECTION_BLOCK numToAllocate) index allocated numToAllocate block
    buffer fs inode
  let fs ← writeBlockByNumber fs doubleIndirect buffer
  some (doubleIndirect, writeInode fs inode, inode)

/-- `diosfs_allocate_triple_indirect_block`. It never passes on the pointer that is there. -/
def allocateTripleIndirectBlock (source : Source) (fs : Context) (inode : Inode)
    (numAllocated numToAllocate : ℕ) : Option (ℕ × Context × Inode) := do
  let (tripleIndirect, fs) ← indirectionRoot source fs false 0 inode.tripleIndirect
  let inode := { inode with tripleIndirect := tripleIndirect }
  let buffer ← readBlockByNumber fs tripleIndirect
  let index := numAllocated / NUM_BLOCKS_DOUBLE_INDIRECTION
  let allocated := numAllocated % NUM_BLOCKS_DOUBLE_INDIRECTION
  let (buffer, fs, inode) ← fillTable NUM_BLOCKS_DOUBLE_INDIRECTION (fun _ _ ↦ some 0)
    (fun fs inode allocated amount block ↦
      allocateDoubleIndirectBlock source fs inode allocated amount true block)
    (tableRounds NUM_BLOCKS_DOUBLE_INDIRECTION numToAllocate) index allocated numToAllocate (some 0)
    buffer fs inode
  let fs ← writeBlockByNumber fs tripleIndirect buffer
  some (tripleIndirect, fs, inode)

inductive WriteResult where
  | success
  | bufferTooSmall
  | cannotWriteDirectory
  | unexpectedSymlinkType
  | error
deriving DecidableEq, Repr

inductive Level where
  | direct
  | single
  | double
  | triple
deriving DecidableEq, Repr

/-- The field `levels_indirection`. -/
def ByteOffsetIndices.level : ByteOffsetIndices → Level
  | .direct _ => .direct
  | .single _ => .single
  | .double _ _ => .double
  | .triple _ _ _ => .triple

def Level.capacity : Level → ℕ
  | .direct => NUM_BLOCKS_DIRECT
  | .single => NUM_BLOCKS_IN_INDIRECTION_BLOCK
  | .double => NUM_BLOCKS_DOUBLE_INDIRECTION
  | .triple => NUM_BLOCKS_TRIPLE_INDIRECTION

/-- The local `num_allocated` of `diosfs_inode_allocate_new_blocks` at a level. The first of the
subtractions is one of 32 bits. -/
def Level.numAllocated (blockCount : ℕ) : Level → ℕ
  | .direct => blockCount
  | .single => subtract32 blockCount NUM_BLOCKS_DIRECT
  | .double => subtract64 (subtract32 blockCount NUM_BLOCKS_DIRECT) NUM_BLOCKS_IN_INDIRECTION_BLOCK
  | .triple => subtract64 (subtract64 (subtract32 blockCount NUM_BLOCKS_DIRECT)
      NUM_BLOCKS_IN_INDIRECTION_BLOCK) NUM_BLOCKS_DOUBLE_INDIRECTION

/-- The local `num_in_indirect`. -/
def numInIndirect (capacity numBlocks numAllocated : ℕ) : ℕ :=
  if capacity < (numBlocks + numAllocated) % 2 ^ 64 then subtract64 capacity numAllocated
  else numBlocks

/-- The loop at the label `level_zero`, with a number of rounds to go. Returns how many blocks are
still to be allocated. -/
def allocateDirect (source : Source) : ℕ → ℕ → Context → Inode → Option (ℕ × Context × Inode)
  | 0, numBlocks, fs, inode => some (numBlocks, fs, inode)
  | rounds + 1, numBlocks, fs, inode => do
      let (number, fs) ← source fs
      if h : inode.blockCount < NUM_BLOCKS_DIRECT then
        let inode := { inode with
          blocks := inode.blocks.set inode.blockCount number h
          blockCount := inode.blockCount + 1 }
        let numBlocks := subtract32 numBlocks 1
        if numBlocks = 0 then some (0, fs, inode)
        else allocateDirect source rounds numBlocks fs inode
      else none

/-- The statements at one of the labels `level_one`, `level_two` and `level_three`. -/
def allocateAt (level : Level)
    (allocate : Context → Inode → ℕ → ℕ → Option (ℕ × Context × Inode)) (numBlocks : ℕ)
    (fs : Context) (inode : Inode) : Option (ℕ × Context × Inode) := do
  let numAllocated := level.numAllocated inode.blockCount
  let numInIndirect := numInIndirect level.capacity numBlocks numAllocated
  let (_, fs, inode) ← allocate fs inode numAllocated numInIndirect
  some (subtract32 numBlocks numInIndirect, fs,
    { inode with blockCount := (inode.blockCount + numInIndirect) % 2 ^ 32 })

/-- The end of the statements at a label: it falls through to the next label unless no block is left
to allocate. -/
def fallThrough (stage : Option (ℕ × Context × Inode))
    (next : ℕ → Context → Inode → Option (ℕ × Context × Inode)) : Option (ℕ × Context × Inode) := do
  let (numBlocks, fs, inode) ← stage
  if numBlocks = 0 then some (0, fs, inode) else next numBlocks fs inode

/-- From the label `level_three` on. -/
def levelThree (source : Source) (numBlocks : ℕ) (fs : Context) (inode : Inode) :
    Option (ℕ × Context × Inode) :=
  allocateAt .triple (fun fs inode numAllocated numInIndirect ↦
    allocateTripleIndirectBlock source fs inode numAllocated numInIndirect) numBlocks fs inode

/-- From the label `level_two` on. -/
def levelTwo (source : Source) (numBlocks : ℕ) (fs : Context) (inode : Inode) :
    Option (ℕ × Context × Inode) :=
  fallThrough (allocateAt .double (fun fs inode numAllocated numInIndirect ↦
    allocateDoubleIndirectBlock source fs inode numAllocated numInIndirect false 0) numBlocks fs
    inode) (levelThree source)

/-- From the label `level_one` on. -/
def levelOne (source : Source) (numBlocks : ℕ) (fs : Context) (inode : Inode) :
    Option (ℕ × Context × Inode) :=
  fallThrough (allocateAt .single (fun fs inode numAllocated numInIndirect ↦
    allocateSingleIndirectBlock source fs inode numAllocated numInIndirect false 0) numBlocks fs
    inode) (levelTwo source)

/-- From the label `level_zero` on. -/
def levelZero (source : Source) (numBlocks : ℕ) (fs : Context) (inode : Inode) :
    Option (ℕ × Context × Inode) :=
  fallThrough (allocateDirect source (NUM_BLOCKS_DIRECT - inode.blockCount) numBlocks fs inode)
    (levelOne source)

/-- The block whose level `diosfs_inode_allocate_new_blocks` starts at: the first one past the end of
the file. -/
def endOfFile (size : ℕ) : ℕ :=
  if size % DIOSFS_BLOCKSIZE = 0 then size / DIOSFS_BLOCKSIZE else size / DIOSFS_BLOCKSIZE + 1

/-- The `switch` over the levels. -/
def allocateFrom (source : Source) : Level → ℕ → Context → Inode → Option (ℕ × Context × Inode)
  | .direct => levelZero source
  | .single => levelOne source
  | .double => levelTwo source
  | .triple => levelThree source

def inodeAllocateNewBlocks (source : Source) (fs : Context) (inode : Inode)
    (numBlocksToAllocate : ℕ) : Option (WriteResult × Context × Inode) :=
  if inode.type = typeCode .directory ∧
      NUM_BLOCKS_DIRECT < numBlocksToAllocate + inode.size / DIOSFS_BLOCKSIZE then
    some (.error, fs, inode)
  else if MAX_BLOCKS_IN_INODE < numBlocksToAllocate + inode.size / DIOSFS_BLOCKSIZE then
    some (.error, fs, inode)
  else do
    let result ← indirectionIndicesForBlockNumber (endOfFile inode.size)
    let (numBlocks, fs, inode) ← allocateFrom source result.level numBlocksToAllocate fs inode
    if numBlocks ≠ 0 then none else some (.success, writeInode fs inode, inode)

/-- The local `num_blocks_to_write`: one more for a short write that reaches the end of its block. -/
def numBlocksToWrite (startOffset writeSizeBytes : ℕ) : ℕ :=
  if (startOffset + writeSizeBytes) % 2 ^ 64 / DIOSFS_BLOCKSIZE ≠ 0 ∧
      writeSizeBytes / DIOSFS_BLOCKSIZE = 0 then 1
  else writeSizeBytes / DIOSFS_BLOCKSIZE

/-- The loop of `diosfs_write_bytes_to_inode`, with a number of rounds to go. The device takes a
whole block from the buffer in each of them. -/
def writeLoop (inode : Inode) : ℕ → ℕ → ℕ → ℕ → Bytes → Context → Option Context
  | 0, _, _, _, _, fs => some fs
  | rounds + 1, block, startOffset, bytesLeft, buffer, fs => do
      let byteSize :=
        if DIOSFS_BLOCKSIZE - startOffset < bytesLeft then DIOSFS_BLOCKSIZE - startOffset
        else bytesLeft
      let number ← getRelativeBlockNumberFromFile fs inode block
      let fs ← writeBlockByNumber fs number buffer
      writeLoop inode rounds (block + 1) 0 (bytesLeft - byteSize)
        (fun position ↦ buffer (byteSize + position)) fs

def allocateFirst (source : Source) (fs : Context) (inode : Inode) : Option (Context × Inode) :=
  if inode.size = 0 then do
    let (number, fs) ← source fs
    let fs := writeInode fs { inode with
      blockCount := (inode.blockCount + 1) % 2 ^ 32
      blocks := inode.blocks.set 0 number }
    some (fs, fs.inodes inode.inodeNumber)
  else some (fs, inode)

/-- The allocation of the blocks up to `end_block`. What `diosfs_inode_allocate_new_blocks` returns
is ignored. -/
def allocateUpTo (source : Source) (fs : Context) (inode : Inode) (endBlock : ℕ) :
    Option (Context × Inode) :=
  if inode.blockCount < endBlock + 1 then do
    let (_, fs, inode) ← inodeAllocateNewBlocks source fs inode
      ((endBlock + 1 - inode.blockCount) % 2 ^ 32)
    some (fs, { inode with blockCount := (endBlock + 1) % 2 ^ 32 })
  else some (fs, inode)

/-- The inode after a write past the end of the file, which had the size `oldSize` before. -/
def resize (oldSize offset writeSizeBytes : ℕ) (inode : Inode) : Inode :=
  let newEnd := (offset + writeSizeBytes) % 2 ^ 64
  if oldSize < newEnd then { inode with size := (inode.size + (newEnd - oldSize)) % 2 ^ 32 } else inode

/-- The end of a write: the inode is stored, and what the directory entry repeats of it. -/
def finishWrite (fs : Context) (inode : Inode) : Option (WriteResult × Context × Inode) := do
  let fs := writeInode fs inode
  match ← findDirectoryEntryAndUpdate fs inode.inodeNumber inode.parentInodeNumber with
  | .error _ => some (.success, fs, inode)
  | .ok fs => some (.success, fs, inode)

/-- `diosfs_write_bytes_to_inode`. `buffer` is the memory from the address of the buffer on. -/
def writeBytesToInode (source : Source) (fs : Context) (inode : Inode) (buffer : Bytes)
    (bufferSize offset writeSizeBytes : ℕ) : Option (WriteResult × Context × Inode) :=
  if inode.type ≠ typeCode .file then none
  else if bufferSize < writeSizeBytes then some (.bufferTooSmall, fs, inode)
  else if inode.size < offset then none
  else do
    let startBlock := offset / DIOSFS_BLOCKSIZE
    let startOffset := offset % DIOSFS_BLOCKSIZE
    let numBlocks := numBlocksToWrite startOffset writeSizeBytes
    let oldSize := inode.size
    let (fs, inode) ← allocateFirst source fs inode
    let (fs, inode) ← allocateUpTo source fs inode (startBlock + numBlocks)
    let fs ← writeLoop inode (numBlocks + 1) startBlock startOffset writeSizeBytes buffer fs
    finishWrite fs (resize oldSize offset writeSizeBytes inode)

/-- `diosfs_write` to a vnode; `target` is the vnode that a symbolic link leads to. Returns the disk
and the vnode that was written. -/
def write (source : Source) (fs : Context) (target : Option Vnode) (vnode : Vnode) (offset : ℕ)
    (buffer : Bytes) (bytes : ℕ) : Option (WriteResult × Context × Vnode) :=
  if vnode.vnodeType = .directory then some (.cannotWriteDirectory, fs, vnode)
  else if vnode.vnodeType = .symLink ∧ target.map Vnode.vnodeType ≠ some .file then
    some (.unexpectedSymlinkType, fs, vnode)
  else do
    let vnode := if vnode.vnodeType = .symLink then target.getD vnode else vnode
    let (result, fs, _) ← writeBytesToInode source fs (fs.inodes vnode.vnodeInodeNumber) buffer bytes
      offset bytes
    if result ≠ .success then some (.error, fs, vnode)
    else some (.success, fs, { vnode with vnodeSize := (vnode.vnodeSize + bytes) % 2 ^ 64 })

end DionysOS.Filesystem.Diosfs
