import DionysOS.Filesystem.Vfs
import DionysOS.Foundation.ByteRecords

/-!
# The disk of diosfs, and its directories

The records of `diosfs.h` and the functions of `diosfs.c` that create files and list directories:
`diosfs_create`, `diosfs_write_dirent`, `diosfs_get_directory_entries`, the two allocators that scan
a bitmap, and the transfers of blocks and inodes.

The regions of the disk are separate maps: the two bitmaps by bit, the inodes by number, the data
blocks by number. The inode table holds more inodes than a number of 16 bits can name. `none` is a
panic, an access outside an array, or a value that depends on memory that was never written.
-/

namespace DionysOS.Filesystem.Diosfs

open Foundation.ByteRecords Function BitVec
open Vfs (VnodeType FilesystemId DIOSFS_BLOCKSIZE NUM_BLOCKS_DIRECT)

def MAX_FILENAME_LENGTH : ℕ := 128
def PAGE_SIZE : ℕ := 4096
def NUM_INODES_PER_BLOCK : ℕ := 4

/-- `sizeof(struct diosfs_directory_entry)`. -/
def DIRECTORY_ENTRY_SIZE : ℕ := 144

def DIOSFS_MAX_FILES_IN_DIRENT_BLOCK : ℕ := DIOSFS_BLOCKSIZE / DIRECTORY_ENTRY_SIZE

theorem maxFilesInDirentBlock_eq : DIOSFS_MAX_FILES_IN_DIRENT_BLOCK = 7 := rfl

def DIOSFS_MAX_FILES_IN_DIRECTORY : ℕ := NUM_BLOCKS_DIRECT * DIOSFS_BLOCKSIZE / DIRECTORY_ENTRY_SIZE

def BITS_PER_BLOCK : ℕ := DIOSFS_BLOCKSIZE * 8

/-- The value of `enum vnode_types` in the 16 bits of a `type` field. -/
def typeCode : VnodeType → BitVec 16
  | .directory => 0
  | .file => 1
  | .hardLink => 2
  | .blockDev => 3
  | .charDev => 4
  | .netDev => 5
  | .special => 6
  | .specialFile => 7
  | .symLink => 8

/-- The characters of a C string before its terminating zero. -/
structure CString where
  chars : List Byte
  zero_notMem : 0 ∉ chars
deriving DecidableEq

theorem zero_notMem_singleton {letter : Byte} (hletter : letter ≠ 0) : 0 ∉ [letter] :=
  fun hzero ↦ hletter (List.mem_singleton.mp hzero).symm

/-- A `name` field: `char name[MAX_FILENAME_LENGTH]`. -/
abbrev NameField := Fin MAX_FILENAME_LENGTH → Byte

/-- `safe_strcpy` into a name field of zeros. It stops after the terminating zero of the source;
where the source has none in the first `dest_size` characters, it writes past the field. -/
def safeStrcpy (source : CString) : Option NameField :=
  if source.chars.length < MAX_FILENAME_LENGTH then some fun index ↦ source.chars.getD index 0
  else none

/-- `struct diosfs_directory_entry`. -/
@[ext]
structure Dirent where
  name : NameField
  inodeNumber : BitVec 32
  parentInodeNumber : BitVec 32
  type : BitVec 16
  deviceNumber : BitVec 16
  size : BitVec 32

namespace Dirent

def toBytes (entry : Dirent) : Bytes := fun position ↦
  if h : position < MAX_FILENAME_LENGTH then entry.name ⟨position, h⟩
  else if position < 132 then byte entry.inodeNumber.toNat (position - 128)
  else if position < 136 then byte entry.parentInodeNumber.toNat (position - 132)
  else if position < 138 then byte entry.type.toNat (position - 136)
  else if position < 140 then byte entry.deviceNumber.toNat (position - 138)
  else byte entry.size.toNat (position - 140)

def ofBytes (bytes : Bytes) : Dirent where
  name := fun index ↦ bytes index
  inodeNumber := BitVec.ofNat 32 (load bytes 4 128)
  parentInodeNumber := BitVec.ofNat 32 (load bytes 4 132)
  type := BitVec.ofNat 16 (load bytes 2 136)
  deviceNumber := BitVec.ofNat 16 (load bytes 2 138)
  size := BitVec.ofNat 32 (load bytes 4 140)

theorem ofBytes_congr {bytes others : Bytes}
    (hsame : ∀ pos < DIRECTORY_ENTRY_SIZE, bytes pos = others pos) :
    ofBytes bytes = ofBytes others := by
  have hload : ∀ width offset, offset + width ≤ 144 →
      load bytes width offset = load others width offset := fun width offset hfits ↦
    load_congr fun idx hidx ↦ hsame _ (by simp only [DIRECTORY_ENTRY_SIZE]; omega)
  ext1
  · funext idx
    have hidx := idx.isLt
    simp only [MAX_FILENAME_LENGTH] at hidx
    exact hsame idx (by simp only [DIRECTORY_ENTRY_SIZE]; omega)
  · exact congrArg (BitVec.ofNat 32) (hload 4 128 (by omega))
  · exact congrArg (BitVec.ofNat 32) (hload 4 132 (by omega))
  · exact congrArg (BitVec.ofNat 16) (hload 2 136 (by omega))
  · exact congrArg (BitVec.ofNat 16) (hload 2 138 (by omega))
  · exact congrArg (BitVec.ofNat 32) (hload 4 140 (by omega))

theorem ofNat_load {bytes : Bytes} {bits width off : ℕ} (value : BitVec bits)
    (hbits : 2 ^ bits = 256 ^ width)
    (hbytes : ∀ idx < width, bytes (off + idx) = byte value.toNat idx) :
    BitVec.ofNat bits (load bytes width off) = value := by
  rw [load_eq_mod hbytes, ← hbits, Nat.mod_eq_of_lt value.isLt, ofNat_toNat,
    setWidth_eq]

@[simp]
theorem ofBytes_toBytes (entry : Dirent) : ofBytes entry.toBytes = entry := by
  ext1
  · funext idx
    exact dif_pos idx.isLt
  · refine @ofNat_load _ 32 4 128 _ (by decide) fun idx hidx ↦ ?_
    rw [toBytes, dif_neg (by simp only [MAX_FILENAME_LENGTH]; omega), if_pos (by omega),
      Nat.add_sub_cancel_left]
  · refine @ofNat_load _ 32 4 132 _ (by decide) fun idx hidx ↦ ?_
    rw [toBytes, dif_neg (by simp only [MAX_FILENAME_LENGTH]; omega), if_neg (by omega),
      if_pos (by omega), Nat.add_sub_cancel_left]
  · refine @ofNat_load _ 16 2 136 _ (by decide) fun idx hidx ↦ ?_
    rw [toBytes, dif_neg (by simp only [MAX_FILENAME_LENGTH]; omega), if_neg (by omega),
      if_neg (by omega), if_pos (by omega), Nat.add_sub_cancel_left]
  · refine @ofNat_load _ 16 2 138 _ (by decide) fun idx hidx ↦ ?_
    rw [toBytes, dif_neg (by simp only [MAX_FILENAME_LENGTH]; omega), if_neg (by omega),
      if_neg (by omega), if_neg (by omega), if_pos (by omega), Nat.add_sub_cancel_left]
  · refine @ofNat_load _ 32 4 140 _ (by decide) fun idx hidx ↦ ?_
    rw [toBytes, dif_neg (by simp only [MAX_FILENAME_LENGTH]; omega), if_neg (by omega),
      if_neg (by omega), if_neg (by omega), if_neg (by omega), Nat.add_sub_cancel_left]

end Dirent

def entryOf (block : Bytes) (index : ℕ) : Dirent :=
  Dirent.ofBytes (slot DIRECTORY_ENTRY_SIZE index block)

def setEntry (block : Bytes) (index : ℕ) (entry : Dirent) : Bytes :=
  setSlot DIRECTORY_ENTRY_SIZE index entry.toBytes block

@[simp]
theorem entryOf_setEntry_self (block : Bytes) (idx : ℕ) (entry : Dirent) :
    entryOf (setEntry block idx entry) idx = entry := by
  rw [entryOf, ← Dirent.ofBytes_toBytes entry]
  refine Dirent.ofBytes_congr fun pos hpos ↦ ?_
  rw [Dirent.ofBytes_toBytes]
  exact slot_setSlot_self hpos

theorem entryOf_setEntry_of_ne {idx other : ℕ} (hother : other ≠ idx) (block : Bytes)
    (entry : Dirent) : entryOf (setEntry block idx entry) other = entryOf block other :=
  Dirent.ofBytes_congr fun _ hpos ↦ slot_setSlot_of_ne hother hpos

/-- `struct diosfs_inode`. -/
structure Inode where
  uid : ℕ
  inodeNumber : ℕ
  parentInodeNumber : ℕ
  type : BitVec 16
  refcount : ℕ
  name : NameField
  size : ℕ
  blockCount : ℕ
  blocks : Vector ℕ NUM_BLOCKS_DIRECT
  singleIndirect : ℕ
  doubleIndirect : ℕ
  tripleIndirect : ℕ

def Inode.zero : Inode :=
  ⟨0, 0, 0, 0, 0, fun _ ↦ 0, 0, 0, Vector.replicate NUM_BLOCKS_DIRECT 0, 0, 0, 0⟩

/-- The fields of `struct diosfs_superblock` that the functions below read. -/
structure Superblock where
  inodeBitmapSize : ℕ
  blockBitmapSize : ℕ
  blockBitmapPointersStart : ℕ
  inodeStartPointer : ℕ
deriving DecidableEq, Repr

/-- `struct diosfs_filesystem_context`, with the disk of its device. `numBlocks` data blocks are on
the device; a transfer past them is an error. -/
@[ext]
structure Context where
  superblock : Superblock
  deviceMinor : ℕ
  numBlocks : ℕ
  inodeBitmap : ℕ → Bool
  blockBitmap : ℕ → Bool
  inodes : ℕ → Inode
  blocks : ℕ → Bytes

namespace Context

@[simps -fullyApplied]
def setBlock (fs : Context) (number : ℕ) (block : Bytes) : Context :=
  { fs with blocks := update fs.blocks number block }

@[simps -fullyApplied]
def setBlockBit (fs : Context) (number : ℕ) (bit : Bool) : Context :=
  { fs with blockBitmap := update fs.blockBitmap number bit }

@[simps -fullyApplied]
def setInodeBit (fs : Context) (number : ℕ) (bit : Bool) : Context :=
  { fs with inodeBitmap := update fs.inodeBitmap number bit }

end Context

def readBlockByNumber (fs : Context) (blockNumber : ℕ) : Option Bytes :=
  if blockNumber < fs.numBlocks then some (fs.blocks blockNumber) else none

/-- `diosfs_write_block_by_number` of a whole block. -/
def writeBlockByNumber (fs : Context) (blockNumber : ℕ) (buffer : Bytes) : Option Context :=
  if blockNumber < fs.numBlocks then some (fs.setBlock blockNumber buffer) else none

@[simps -fullyApplied]
def writeInode (fs : Context) (inode : Inode) : Context :=
  { fs with inodes := update fs.inodes inode.inodeNumber inode }

/-- `diosfs_get_free_inode_and_mark_bitmap`. The buffer for the bitmap has 16 pages. The bit is set
in the first block of the bitmap, whichever block it was found in. -/
def getFreeInodeAndMarkBitmap (fs : Context) : Option (Inode × Context) := do
  if PAGE_SIZE * 16 < fs.superblock.inodeBitmapSize * DIOSFS_BLOCKSIZE then none
  let number ← firstFree fs.inodeBitmap (fs.superblock.inodeBitmapSize * BITS_PER_BLOCK) 0
  some ({ Inode.zero with inodeNumber := number % 2 ^ 16 },
    fs.setInodeBit (number % BITS_PER_BLOCK) true)

/-- `diosfs_get_free_block_and_mark_bitmap`. The number of blocks read is where the bitmap starts,
and the buffer has the size of the bitmap. -/
def getFreeBlockAndMarkBitmap (fs : Context) : Option (ℕ × Context) := do
  if fs.superblock.blockBitmapSize < fs.superblock.blockBitmapPointersStart then none
  let number ← firstFree fs.blockBitmap (fs.superblock.blockBitmapPointersStart * BITS_PER_BLOCK) 0
  some (number, fs.setBlockBit number true)

/-- `enum diosfs_error`, the values that the functions below return. -/
inductive DiosfsError where
  | notADirectory
  | bufferTooSmall
  | cantAllocateBlocksForDir
deriving DecidableEq, Repr

/-- The allocation in `diosfs_write_dirent`: a block for the entry at the end of the directory. -/
def allocateDirentBlock (fs : Context) (inode : Inode) : Option (Context × Inode) :=
  let block := inode.size / DIOSFS_MAX_FILES_IN_DIRENT_BLOCK
  if (inode.size % DIOSFS_MAX_FILES_IN_DIRENT_BLOCK = 0 ∧ inode.blockCount < block) ∨
      inode.blockCount = 0 then do
    let (number, fs) ← getFreeBlockAndMarkBitmap fs
    if h : block < NUM_BLOCKS_DIRECT then
      some (fs, { inode with blocks := inode.blocks.set block number h
                             blockCount := inode.blockCount + 1 })
    else none
  else some (fs, inode)

/-- `diosfs_write_dirent`. It reads the inode again, so that the caller's change to the size counts
only for the first test. -/
def writeDirent (fs : Context) (inode : Inode) (entry : Dirent) :
    Option (Except DiosfsError (Context × Inode)) :=
  if inode.size = DIOSFS_MAX_FILES_IN_DIRECTORY then some (.error .cantAllocateBlocksForDir)
  else do
    let inode := fs.inodes inode.inodeNumber
    let block := inode.size / DIOSFS_MAX_FILES_IN_DIRENT_BLOCK
    let entryInBlock := inode.size % DIOSFS_MAX_FILES_IN_DIRENT_BLOCK
    let (fs, inode) ← allocateDirentBlock fs inode
    let number ← inode.blocks[block]?
    let buffer ← readBlockByNumber fs number
    let inode := { inode with size := inode.size + 1 }
    let fs ← writeBlockByNumber fs number (setEntry buffer entryInBlock entry)
    some (.ok (writeInode fs inode, inode))

/-- The fields of `struct vnode` that a creation reads or sets. -/
structure Vnode where
  vnodeFilesystemId : FilesystemId
  vnodeType : VnodeType
  vnodeInodeNumber : ℕ
  vnodeSize : ℕ
deriving DecidableEq, Repr

/-- The entry that a creation writes into the parent's directory. -/
def newEntry (fs : Context) (parent : Vnode) (name : NameField) (type : VnodeType)
    (inodeNumber : ℕ) : Dirent where
  name := name
  inodeNumber := BitVec.ofNat 32 inodeNumber
  parentInodeNumber := BitVec.ofNat 32 (parent.vnodeInodeNumber % 2 ^ 16)
  type := typeCode type
  deviceNumber := BitVec.ofNat 16 fs.deviceMinor
  size := 0

/-- `diosfs_create`. Returns the parent's vnode, which has grown, and the new one. -/
def create (fs : Context) (parent : Vnode) (name : CString) (vnodeType : VnodeType) :
    Option (Context × Vnode × Option Vnode) := do
  if parent.vnodeFilesystemId ≠ .diosfs then none
  if parent.vnodeType ≠ .directory then some (fs, parent, none)
  else
    let (inode, fs) ← getFreeInodeAndMarkBitmap fs
    let parentInode := fs.inodes parent.vnodeInodeNumber
    let parent := { parent with vnodeSize := parent.vnodeSize + 1 }
    let parentInode := { parentInode with size := parentInode.size + 1 }
    let newVnode : Vnode := ⟨parent.vnodeFilesystemId, vnodeType, inode.inodeNumber, 0⟩
    let nameField ← safeStrcpy name
    let inode := { inode with
      type := typeCode vnodeType
      blockCount := 0
      parentInodeNumber := parent.vnodeInodeNumber % 2 ^ 16
      name := nameField
      uid := 0 }
    let fs := writeInode fs inode
    let entry := newEntry fs parent nameField vnodeType inode.inodeNumber
    match ← writeDirent fs parentInode entry with
    | .error _ => none
    | .ok (fs, parentInode) => some (writeInode fs parentInode, parent, some newVnode)

def blockEntries (block : Bytes) (count : ℕ) : List Dirent := (List.range count).map (entryOf block)

/-- The loop of `diosfs_get_directory_entries`, over the rest of `inode.blocks` and with `left`
entries to come. It ends inside a block: after a full last block it reads one more. -/
def readEntries (fs : Context) : List ℕ → ℕ → Option (List Dirent)
  | [], _ => none
  | number :: rest, left => do
      let buffer ← readBlockByNumber fs number
      if left < DIOSFS_MAX_FILES_IN_DIRENT_BLOCK then some (blockEntries buffer left)
      else do
        let others ← readEntries fs rest (left - DIOSFS_MAX_FILES_IN_DIRENT_BLOCK)
        some (blockEntries buffer DIOSFS_MAX_FILES_IN_DIRENT_BLOCK ++ others)

/-- `diosfs_get_directory_entries` into a buffer of `childrenSize` bytes: the entries written to it.
The test of the buffer's size counts blocks, and the loop writes `inode.size` entries. -/
def getDirectoryEntries (fs : Context) (inodeNumber childrenSize : ℕ) :
    Option (Except DiosfsError (List Dirent)) :=
  let inode := fs.inodes inodeNumber
  if inode.type ≠ typeCode .directory then some (.error .notADirectory)
  else if childrenSize < inode.blockCount * DIOSFS_BLOCKSIZE then some (.error .bufferTooSmall)
  else if childrenSize < inode.size * DIRECTORY_ENTRY_SIZE then none
  else (readEntries fs inode.blocks.toList inode.size).map .ok

end DionysOS.Filesystem.Diosfs
