import DionysOS.Filesystem.DiosfsBlocks

/-!
# Removal of directory entries in diosfs

`diosfs_directory_entry_free` with what it calls: the recursive removal of a directory,
`diosfs_remove_file`, `free_blocks_from_inode` and the functions that free one block or one inode.

The code reads memory that it has not written, in two places: it indexes the entries of a block by
their position in the directory, which is past the block from the eighth entry on, and
`diosfs_free_inode_and_mark_bitmap` writes a page to the disk that it has only allocated. What is
found there is a parameter. The recursion into directories is bounded by fuel.
-/

namespace DionysOS.Filesystem.Diosfs

open Foundation.ByteRecords

/-- Memory that was never written: the entries behind a block of entries, by index, and a page. -/
structure Garbage where
  entries : ℕ → Dirent
  page : Bytes

/-- A bit cleared by `diosfs_clear_bitmap`. The function reads the block of the bitmap that has the
bit into a zeroed page, and then takes the byte at the bit's place in the whole bitmap. From the
second block on that byte is not in the block that it writes back, and in the end it is not in the
page either. -/
def clearBit (bitmap : ℕ → Bool) (number : ℕ) : Option (ℕ → Bool) :=
  if number < BITS_PER_BLOCK then some (Function.update bitmap number false)
  else if number / 8 < PAGE_SIZE then some bitmap
  else none

def freeBlockAndMarkBitmap (fs : Context) (blockNumber : ℕ) : Option Context := do
  let fs ← writeBlockByNumber fs blockNumber fun _ ↦ 0
  let blockBitmap ← clearBit fs.blockBitmap blockNumber
  some { fs with blockBitmap := blockBitmap }

/-- The block that `diosfs_free_inode_and_mark_bitmap` writes last: the block of the inode, counted
from the start of the disk, where `diosfs_write_block_by_number` counts from the start of the data
blocks. -/
def strayBlock (fs : Context) (inodeNumber : ℕ) : ℕ :=
  fs.superblock.inodeStartPointer + inodeNumber / NUM_INODES_PER_BLOCK

def freeInodeAndMarkBitmap (garbage : Garbage) (fs : Context) (inodeNumber : ℕ) :
    Option Context := do
  let fs := writeInode fs { Inode.zero with inodeNumber := inodeNumber }
  let fs ← writeBlockByNumber fs (strayBlock fs inodeNumber) garbage.page
  let inodeBitmap ← clearBit fs.inodeBitmap inodeNumber
  some { fs with inodeBitmap := inodeBitmap }

/-- A loop of `free_blocks_from_inode`: it stops when no block is left to free. -/
def freeEach {α : Type*} (free : Context → ℕ → α → Option (Context × ℕ)) :
    List α → Context → ℕ → Option (Context × ℕ)
  | [], fs, numBlocks => some (fs, numBlocks)
  | root :: roots, fs, numBlocks => do
      let (fs, numBlocks) ← free fs numBlocks root
      if numBlocks = 0 then some (fs, 0) else freeEach free roots fs numBlocks

/-- The nested loops of `free_blocks_from_inode` for a tree of pointer blocks. The pointer blocks
themselves are not freed. -/
def freeTree : ℕ → Context → ℕ → ℕ → Option (Context × ℕ)
  | 0, fs, numBlocks, root => do
      let fs ← freeBlockAndMarkBitmap fs root
      some (fs, numBlocks - 1)
  | depth + 1, fs, numBlocks, root => do
      let block ← readBlockByNumber fs root
      freeEach (freeTree depth) (pointers block) fs numBlocks

/-- `free_blocks_from_inode` from block 0 on, the only way it is called. -/
def freeBlocksFromInode (fs : Context) (numBlocks : ℕ) (inode : Inode) :
    Option (Context × Inode) :=
  if inode.blockCount = 0 then some (fs, inode)
  else do
    let (fs, numBlocks) ←
      freeEach (fun fs numBlocks root ↦ freeTree root.1 fs numBlocks root.2) (roots inode) fs numBlocks
    some (fs, { inode with blockCount := inode.blockCount - numBlocks })

def removeFile (garbage : Garbage) (fs : Context) (inode : Inode) : Option (Context × Inode) := do
  let (fs, inode) ← freeBlocksFromInode fs inode.blockCount inode
  let inode := { inode with name := fun _ ↦ 0 }
  let fs ← freeInodeAndMarkBitmap garbage (writeInode fs inode) inode.inodeNumber
  some (fs, inode)

/-- The removal of a file with its last name; other names only lose a reference. -/
def dropReference (garbage : Garbage) (fs : Context) (inode : Inode) : Option Context :=
  if inode.refcount ≤ 1 then (removeFile garbage fs inode).map Prod.fst
  else some (writeInode fs { inode with refcount := inode.refcount - 1 })

/-- `entries[i]` for a block of entries: the memory behind the block from the eighth one on. -/
def indexed (garbage : Garbage) (buffer : Bytes) (i : ℕ) : Dirent :=
  if i < DIOSFS_MAX_FILES_IN_DIRENT_BLOCK then entryOf buffer i else garbage.entries i

/-- The block of entries that a loop over a directory has in its buffer at index `i`. -/
def loadEntries (fs : Context) (inode : Inode) (i : ℕ) (buffer : Bytes) : Option Bytes :=
  if i % DIOSFS_MAX_FILES_IN_DIRENT_BLOCK = 0 then do
    let number ← inode.blocks[i / DIOSFS_MAX_FILES_IN_DIRENT_BLOCK]?
    readBlockByNumber fs number
  else some buffer

/-- The loop of `diosfs_recursive_directory_entry_free`, with `left` entries to come. -/
def recursiveFreeLoop (garbage : Garbage) (recurse : Context → ℕ → Option Context) (inode : Inode) :
    ℕ → ℕ → Bytes → Context → Option Context
  | 0, _, _, fs => some fs
  | left + 1, i, buffer, fs => do
      let buffer ← loadEntries fs inode i buffer
      let tempInode :=
        fs.inodes (entryOf buffer (i % DIOSFS_MAX_FILES_IN_DIRENT_BLOCK)).inodeNumber.toNat
      let entry := indexed garbage buffer i
      let fs ←
        if entry.type = typeCode .file then dropReference garbage fs tempInode
        else if entry.type = typeCode .directory then recurse fs entry.inodeNumber.toNat
        else (removeFile garbage fs tempInode).map Prod.fst
      recursiveFreeLoop garbage recurse inode left (i + 1) buffer fs

def recursiveDirectoryEntryFree (garbage : Garbage) : ℕ → Context → ℕ → Option Context
  | 0, _, _ => none
  | fuel + 1, fs, inodeNumber => do
      let inode := fs.inodes inodeNumber
      let fs ← recursiveFreeLoop garbage (recursiveDirectoryEntryFree garbage fuel) inode inode.size 0
        garbage.page fs
      let (fs, inode) ← removeFile garbage fs inode
      some (writeInode fs inode)

/-- What `diosfs_directory_entry_free` does with the file or directory that the entry names. -/
def freeTarget (garbage : Garbage) (fuel : ℕ) (fs : Context) (buffer : Bytes) (i : ℕ) :
    Option Context :=
  let entry := entryOf buffer (i % DIOSFS_MAX_FILES_IN_DIRENT_BLOCK)
  if entry.type = typeCode .directory then
    recursiveDirectoryEntryFree garbage fuel fs entry.inodeNumber.toNat
  else if (indexed garbage buffer i).type = typeCode .file then
    dropReference garbage fs (fs.inodes entry.inodeNumber.toNat)
  else some fs

/-- The block that `diosfs_directory_entry_free` frees when the size is a multiple of seven, and the
count of blocks. -/
def dropBlock (fs : Context) (parentInode : Inode) (last : ℕ) : Option (Context × Inode) :=
  if parentInode.size % DIOSFS_MAX_FILES_IN_DIRENT_BLOCK = 0 then do
    let fs ← freeBlockAndMarkBitmap fs last
    some (fs, { parentInode with blockCount := (parentInode.blockCount + (2 ^ 32 - 1)) % 2 ^ 32 })
  else some (fs, parentInode)

/-- The part of `diosfs_directory_entry_free` that takes the entry at `i` out of the directory. The
entry after the last one is moved into its place. -/
def takeOut (fs : Context) (parentInode : Inode) (buffer : Bytes) (i : ℕ) : Option Context := do
  let slot := i % DIOSFS_MAX_FILES_IN_DIRENT_BLOCK
  let number ← parentInode.blocks[i / DIOSFS_MAX_FILES_IN_DIRENT_BLOCK]?
  if 1 < parentInode.size then
    let last ← parentInode.blocks[parentInode.size / DIOSFS_MAX_FILES_IN_DIRENT_BLOCK]?
    let shiftBuffer ← readBlockByNumber fs last
    let buffer :=
      setEntry buffer slot (entryOf shiftBuffer (parentInode.size % DIOSFS_MAX_FILES_IN_DIRENT_BLOCK))
    let (fs, parentInode) ← dropBlock fs parentInode last
    let fs ← writeBlockByNumber fs number buffer
    let fs ← writeBlockByNumber fs number buffer
    some (writeInode fs { parentInode with size := parentInode.size - 1 })
  else
    let fs ← writeBlockByNumber fs number (setEntry buffer slot (Dirent.ofBytes fun _ ↦ 0))
    some (writeInode fs { parentInode with size := parentInode.size - 1 })

/-- The loop of `diosfs_directory_entry_free`: `none` inside is `DIOSFS_NOT_FOUND`. -/
def entryFreeLoop (garbage : Garbage) (fuel : ℕ) (fs : Context) (parentInode : Inode)
    (inodeToRemove : ℕ) : ℕ → ℕ → Bytes → Option (Option Context)
  | 0, _, _ => some none
  | left + 1, i, buffer => do
      let buffer ← loadEntries fs parentInode i buffer
      if (entryOf buffer (i % DIOSFS_MAX_FILES_IN_DIRENT_BLOCK)).inodeNumber.toNat =
          inodeToRemove then do
        let fs ← freeTarget garbage fuel fs buffer i
        let fs ← takeOut fs parentInode buffer i
        some (some fs)
      else entryFreeLoop garbage fuel fs parentInode inodeToRemove left (i + 1) buffer

/-- `diosfs_directory_entry_free`, for an entry or, where that is `NULL`, for an inode. -/
def directoryEntryFree (garbage : Garbage) (fuel : ℕ) (fs : Context) (entry : Option Dirent)
    (inode : Inode) : Option (Option Context) :=
  let parentInode := fs.inodes
    (entry.elim inode.parentInodeNumber fun entry ↦ entry.parentInodeNumber.toNat)
  let inodeToRemove := entry.elim inode.inodeNumber fun entry ↦ entry.inodeNumber.toNat
  entryFreeLoop garbage fuel fs parentInode inodeToRemove parentInode.size 0 garbage.page

end DionysOS.Filesystem.Diosfs
