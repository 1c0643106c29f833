import DionysOS.Filesystem.DiosfsInode
import DionysOS.Tools.MkdiosfsLayout

/-!
# Creating files in an image

The functions of `mkdiosfs.c` that create files and directories, over the bytes of `disk_buffer`, and
the file system that the kernel finds there.

The two allocators are not modelled. A creation takes the inode number and the block that they return
as arguments, and the image records which ones they have returned. It also records the inodes that
were written. `none` is a name that does not fit into its field, or an index outside of `blocks`.
-/

namespace DionysOS.Tools.Mkdiosfs

open Foundation.ByteRecords Function
open Filesystem.Diosfs (CString Dirent Inode NameField MAX_FILENAME_LENGTH setEntry
  DIOSFS_MAX_FILES_IN_DIRENT_BLOCK DIOSFS_MAX_FILES_IN_DIRECTORY)
open Filesystem.Vfs (NUM_BLOCKS_DIRECT)

def DIOSFS_DIRECTORY : BitVec 8 := 0
def DIOSFS_REG_FILE : BitVec 8 := 1

/-- `disk_buffer`, with the inode numbers and blocks that were allocated and the inode that was last
written under each number. -/
structure Image where
  disk : Bytes
  usedInodes : ℕ → Bool
  usedBlocks : ℕ → Bool
  written : ℕ → Inode

variable (super : Superblock)

/-- `INODE_TO_BYTE_OFFSET`. -/
def inodeToByteOffset (inodeNumber : ℕ) : ℕ :=
  super.inodeStartPointer * DIOSFS_BLOCKSIZE +
    inodeNumber / NUM_INODES_PER_BLOCK * DIOSFS_BLOCKSIZE +
    inodeNumber % NUM_INODES_PER_BLOCK * DIOSFS_INODE_SIZE

def readInode (image : Image) (inodeNumber : ℕ) : Inode :=
  Inode.ofBytes fun position ↦ image.disk (inodeToByteOffset super inodeNumber + position)

def writeInode (image : Image) (inode : Inode) : Image :=
  { image with
    disk := copy image.disk (inodeToByteOffset super inode.inodeNumber) inode.toBytes
      DIOSFS_INODE_SIZE
    written := update image.written inode.inodeNumber inode }

/-- The bytes of a block of the image, in a buffer of one block. -/
def blockBytes (disk : Bytes) (blockNumber : ℕ) : Bytes := fun position ↦
  if position < DIOSFS_BLOCKSIZE then disk (blockNumber * DIOSFS_BLOCKSIZE + position) else 0

/-- `diosfs_read_block_by_number` of a whole block. -/
def readBlockByNumber (image : Image) (blockNumber : ℕ) : Bytes :=
  blockBytes image.disk (blockNumber + super.blockStartPointer)

/-- `diosfs_write_block_by_number` of a whole block. -/
def writeBlockByNumber (image : Image) (blockNumber : ℕ) (buffer : Bytes) : Image :=
  { image with
    disk := copy image.disk ((blockNumber + super.blockStartPointer) * DIOSFS_BLOCKSIZE) buffer
      DIOSFS_BLOCKSIZE }

/-- A call of `diosfs_create`, with the inode number that the allocator returns, and the block that it
returns if the directory needs one. -/
structure Creation where
  parent : ℕ
  name : CString
  type : BitVec 8
  number : ℕ
  block : ℕ

def Creation.nameField (creation : Creation) : NameField := fun index ↦
  creation.name.chars.getD index 0

/-- The new inode: `parent` is the number in the inode of the parent. -/
def Creation.inode (creation : Creation) (parent : ℕ) : Inode :=
  { Inode.zero with
    inodeNumber := creation.number % 2 ^ 16
    parentInodeNumber := parent
    type := creation.type.setWidth 16
    name := creation.nameField }

def direntOf (inode : Inode) : Dirent where
  name := inode.name
  inodeNumber := BitVec.ofNat 32 inode.inodeNumber
  parentInodeNumber := BitVec.ofNat 32 inode.parentInodeNumber
  type := inode.type
  deviceNumber := 0
  size := 0

/-- The allocation in `diosfs_write_dirent`, which returns the block `fresh`. -/
def allocateDirentBlock (image : Image) (inode : Inode) (fresh : ℕ) : Option (Image × Inode) :=
  let block := inode.size / DIOSFS_MAX_FILES_IN_DIRENT_BLOCK
  if inode.size % DIOSFS_MAX_FILES_IN_DIRENT_BLOCK = 0 ∨ inode.blockCount = 0 then
    if h : block < NUM_BLOCKS_DIRECT then
      some ({ image with usedBlocks := update image.usedBlocks fresh true },
        { inode with
          blocks := inode.blocks.set block fresh h
          blockCount := inode.blockCount + 1 })
    else none
  else some (image, inode)

/-- `diosfs_write_dirent`. It reads the inode again; the inode of a full directory stays as passed.
The caller does not look at what it returns. -/
def writeDirent (image : Image) (inode : Inode) (entry : Dirent) (fresh : ℕ) :
    Option (Image × Inode) :=
  if inode.size = DIOSFS_MAX_FILES_IN_DIRECTORY then some (image, inode)
  else do
    let inode := readInode super image inode.inodeNumber
    let block := inode.size / DIOSFS_MAX_FILES_IN_DIRENT_BLOCK
    let entryInBlock := inode.size % DIOSFS_MAX_FILES_IN_DIRENT_BLOCK
    let (image, inode) ← allocateDirentBlock image inode fresh
    let number ← inode.blocks[block]?
    let buffer := setEntry (readBlockByNumber super image number) entryInBlock entry
    let inode := { inode with size := inode.size + 1 }
    some (writeInode super (writeBlockByNumber super image number buffer) inode, inode)

/-- `diosfs_create`. `strcpy` writes a longer name past the field. -/
def create (image : Image) (creation : Creation) : Option (Image × ℕ) := do
  let image :=
    { image with usedInodes := update image.usedInodes creation.number true }
  let parent := readInode super image creation.parent
  let parent := { parent with size := parent.size + 1 }
  if MAX_FILENAME_LENGTH ≤ creation.name.chars.length then none
  let inode := creation.inode parent.inodeNumber
  let image := writeInode super image inode
  let (image, parent) ← writeDirent super image parent (direntOf inode) creation.block
  some (writeInode super image parent, inode.inodeNumber)

def rootInode (root : ℕ) : Inode :=
  { Inode.zero with
    inodeNumber := root % 2 ^ 16
    type := DIOSFS_DIRECTORY.setWidth 16
    refcount := 1
    name := fun index ↦ if index.val = 0 then 0x2f else 0 }

/-- The image after `main` has zeroed its blocks and created the root under the number `root`. -/
def makeRoot (root : ℕ) : Image :=
  writeInode super
    { disk := fun _ ↦ 0
      usedInodes := update (fun _ ↦ false) root true
      usedBlocks := fun _ ↦ false
      written := fun _ ↦ Inode.zero }
    (rootInode root)

/-- The file system that the kernel finds on the image. -/
def mounted (image : Image) : Filesystem.Diosfs.Context where
  superblock := ⟨super.inodeBitmapSize, super.blockBitmapSize, super.blockBitmapPointersStart,
    super.inodeStartPointer⟩
  deviceMinor := 0
  numBlocks := super.numBlocks - super.blockStartPointer
  inodeBitmap := image.usedInodes
  blockBitmap := image.usedBlocks
  inodes := Filesystem.Diosfs.readInode super.inodeStartPointer (blockBytes image.disk)
  blocks := fun number ↦ blockBytes image.disk (super.blockStartPointer + number)

end DionysOS.Tools.Mkdiosfs
