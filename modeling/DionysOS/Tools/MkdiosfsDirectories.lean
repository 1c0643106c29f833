import DionysOS.Filesystem.DiosfsDirectory
import DionysOS.Foundation.PartialMachine
import DionysOS.Tools.Mkdiosfs

/-!
# The kernel finds the directories of an image

The builder addresses an inode by its byte, the kernel by its block and the offset in the block. Both
find the same inode, and a write of the builder is to the kernel a write of that inode or block. It
follows that each creation appends its entry to its directory as the kernel sees it, and leaves every
other directory alone.
-/

namespace DionysOS.Tools.Mkdiosfs

open Foundation.ByteRecords Function Filesystem.Diosfs Option Inode
open Filesystem.Diosfs (Context Dirent Extends Holds Inode Stores directBlocks entryOf
  getDirectoryEntries setEntry typeCode)
open Filesystem.Vfs (NUM_BLOCKS_DIRECT)

variable {super : Superblock} {image : Image}

/-- The inode table ends where the data blocks start, and there is a data block. -/
structure Superblock.Arranged (super : Superblock) : Prop where
  inodes : super.numInodes % NUM_INODES_PER_BLOCK = 0
  blockStart : super.blockStartPointer =
    super.inodeStartPointer + super.numInodes / NUM_INODES_PER_BLOCK
  blockStart_lt : super.blockStartPointer < super.numBlocks
  numBlocks_lt : super.numBlocks < 2 ^ 64

theorem arranged_layout {megabytes : ℕ} {laid : Layout} (hlaid : layout megabytes = some laid) :
    laid.super.Arranged := by
  unfold layout at hlaid
  obtain ⟨hmegabytes, hlaid⟩ := ite_none_left_eq_some.mp hlaid
  obtain ⟨size, hsize, hpure⟩ := bind_eq_some_iff.mp hlaid
  cases hpure
  unfold diosfsGetSizeInfo at hsize
  split at hsize
  · cases hsize
  · cases hsize
    constructor <;>
      simp only [superblock, NUM_INODES_PER_BLOCK, DIOSFS_BLOCKSIZE, DIOSFS_INODE_SIZE] <;> omega

theorem inodeToByteOffset_eq (number : ℕ) :
    inodeToByteOffset super number = 1024 * super.inodeStartPointer + 256 * number := by
  simp only [inodeToByteOffset, DIOSFS_BLOCKSIZE, NUM_INODES_PER_BLOCK, DIOSFS_INODE_SIZE]
  omega

variable {pos block : ℕ} {inode : Inode}

theorem blockBytes_of_lt (disk : Bytes) (block : ℕ) (hpos : pos < 1024) :
    blockBytes disk block pos = disk (1024 * block + pos) := by
  rw [mul_comm]
  exact if_pos hpos

theorem blockBytes_of_le (disk : Bytes) (block : ℕ) (hpos : 1024 ≤ pos) :
    blockBytes disk block pos = 0 :=
  if_neg (not_lt.mpr hpos)

theorem inodes_mounted (image : Image) (number : ℕ) :
    (mounted super image).inodes number = readInode super image number := by
  refine ofBytes_congr fun position hpos ↦ ?_
  have hperBlock : Filesystem.Diosfs.NUM_INODES_PER_BLOCK = 4 := rfl
  have hsize : Filesystem.Diosfs.DIOSFS_INODE_SIZE = 256 := rfl
  rw [inodeToByteOffset_eq, slot, hperBlock, hsize, blockBytes_of_lt _ _ (by omega)]
  congr 1
  omega

theorem blocks_mounted (image : Image) (block : ℕ) :
    (mounted super image).blocks block = readBlockByNumber super image block := by
  rw [readBlockByNumber, add_comm]
  rfl

theorem fits_mounted (image : Image) (num : ℕ) : ((mounted super image).inodes num).Fits :=
  fits_ofBytes _

theorem ofBytes_copy (disk : Bytes) (hfits : inode.Fits) (number : ℕ) :
    ofBytes (fun position ↦ copy disk (inodeToByteOffset super inode.inodeNumber) inode.toBytes
        DIOSFS_INODE_SIZE (inodeToByteOffset super number + position)) =
      if number = inode.inodeNumber then inode
      else ofBytes fun position ↦ disk (inodeToByteOffset super number + position) := by
  split
  · rename_i hsame
    refine Eq.trans (ofBytes_congr fun position hpos ↦ ?_) (ofBytes_toBytes hfits)
    rw [hsame, copy_of_inside (show position < DIOSFS_INODE_SIZE from hpos)]
  · refine ofBytes_congr fun position hpos ↦ copy_of_outside ?_
    have hpos : position < 256 := hpos
    simp only [inodeToByteOffset_eq, DIOSFS_INODE_SIZE]
    omega

theorem readInode_writeInode (hfits : inode.Fits) (number : ℕ) :
    readInode super (writeInode super image inode) number =
      if number = inode.inodeNumber then inode else readInode super image number :=
  ofBytes_copy image.disk hfits number

theorem mounted_writeInode (harranged : super.Arranged) (hfits : inode.Fits)
    (hnum : inode.inodeNumber < super.numInodes) :
    mounted super (writeInode super image inode) =
      Filesystem.Diosfs.writeInode (mounted super image) inode := by
  obtain ⟨htable, hstart, -⟩ := harranged
  simp only [NUM_INODES_PER_BLOCK, DIOSFS_BLOCKSIZE, DIOSFS_INODE_SIZE] at htable hstart
  have hinodes : (mounted super (writeInode super image inode)).inodes =
      update (mounted super image).inodes inode.inodeNumber inode := by
    funext number
    rw [inodes_mounted, readInode_writeInode hfits, update_apply, inodes_mounted]
  have hblocks : (mounted super (writeInode super image inode)).blocks =
      (mounted super image).blocks := by
    funext block position
    simp only [mounted]
    by_cases hpos : position < 1024
    · rw [blockBytes_of_lt _ _ hpos, blockBytes_of_lt _ _ hpos]
      refine copy_of_outside ?_
      rw [inodeToByteOffset_eq]
      simp only [DIOSFS_INODE_SIZE]
      omega
    · rw [blockBytes_of_le _ _ (by omega), blockBytes_of_le _ _ (by omega)]
  rw [Filesystem.Diosfs.writeInode, ← hinodes]
  ext1
  all_goals first | rfl | exact hblocks

theorem blocks_writeBlockByNumber
    (hbuf : ∀ position, DIOSFS_BLOCKSIZE ≤ position → buffer position = 0) :
    (mounted super (writeBlockByNumber super image block buffer)).blocks =
      update (mounted super image).blocks block buffer := by
  funext other position
  have hsize : DIOSFS_BLOCKSIZE = 1024 := rfl
  rw [update_apply]
  simp only [mounted, writeBlockByNumber, hsize]
  by_cases hpos : position < 1024
  · rw [blockBytes_of_lt _ _ hpos]
    by_cases hsame : other = block
    · rw [if_pos hsame, hsame, add_comm super.blockStartPointer, mul_comm 1024,
        copy_of_inside hpos]
    · rw [if_neg hsame, blockBytes_of_lt _ _ hpos, copy_of_outside (by omega)]
  · rw [blockBytes_of_le _ _ (by omega)]
    split
    · exact (hbuf position (by omega)).symm
    · exact (blockBytes_of_le _ _ (by omega)).symm

theorem inodes_writeBlockByNumber (harranged : super.Arranged) {number : ℕ}
    (hnum : number < super.numInodes) :
    (mounted super (writeBlockByNumber super image block buffer)).inodes number =
      (mounted super image).inodes number := by
  obtain ⟨htable, hstart, -⟩ := harranged
  simp only [NUM_INODES_PER_BLOCK, DIOSFS_BLOCKSIZE, DIOSFS_INODE_SIZE] at htable hstart
  rw [inodes_mounted, inodes_mounted]
  simp only [readInode, writeBlockByNumber]
  refine ofBytes_congr fun position hpos ↦ ?_
  have hpos : position < 256 := hpos
  rw [copy_of_outside]
  simp only [inodeToByteOffset_eq, DIOSFS_BLOCKSIZE]
  omega

section WriteDirent

variable {number num fresh : ℕ} {entries : List Dirent}

/-- The block is free, and it is one of the data blocks. -/
def FreshBlock (super : Superblock) (image : Image) (block : ℕ) : Prop :=
  image.usedBlocks block = false ∧ block < super.numBlocks - super.blockStartPointer

theorem fits_addBlock (hfits : inode.Fits)
    (hcount : inode.blockCount < NUM_BLOCKS_DIRECT) (hfresh : fresh < 2 ^ 64) :
    (addBlock inode hcount fresh).Fits := by
  refine { hfits with blockCount := ?_, blocks := fun idx ↦ ?_ }
  · simp only [addBlock, NUM_BLOCKS_DIRECT] at hcount ⊢
    omega
  · have hold := hfits.blocks idx
    simp only [addBlock, Fin.getElem_fin, Vector.getElem_set] at hold ⊢
    split
    · exact hfresh
    · exact hold

theorem allocateDirentBlock_spec (harranged : super.Arranged) (hfits : inode.Fits)
    (hstores : Stores (mounted super image) inode entries) (hlen : entries.length < 70)
    (hcount : inode.blockCount = (entries.length + 6) / 7)
    (hfresh : entries.length % 7 = 0 → FreshBlock super image fresh) :
    ∃ marked blocks,
      let grown := { inode with blocks := blocks, blockCount := (entries.length + 7) / 7 }
      allocateDirentBlock image inode fresh = some (marked, grown) ∧
      Stores (mounted super marked) grown entries ∧ grown.Fits ∧
      (∃ bits, marked = { image with usedBlocks := bits }) ∧
      (∀ block, image.usedBlocks block = true → marked.usedBlocks block = true) ∧
      ∀ block ∈ directBlocks grown,
        block ∈ directBlocks inode ∨ image.usedBlocks block = false := by
  have hsize := hstores.size
  have hperBlock := maxFilesInDirentBlock_eq
  by_cases hfull : entries.length % 7 = 0
  · obtain ⟨hclear, hdev⟩ := hfresh hfull
    have hblock : inode.size / 7 = inode.blockCount := by omega
    have hlt : inode.blockCount < NUM_BLOCKS_DIRECT := by
      simp only [NUM_BLOCKS_DIRECT]
      omega
    have hnext : inode.blockCount + 1 = (entries.length + 7) / 7 := by omega
    have hgrown : addBlock inode hlt fresh =
        { inode with
          blocks := inode.blocks.set inode.blockCount fresh hlt
          blockCount := (entries.length + 7) / 7 } := by
      rw [addBlock, hnext]
    refine ⟨{ image with usedBlocks := update image.usedBlocks fresh true },
      inode.blocks.set inode.blockCount fresh hlt, ?_, ?_, ?_, ⟨_, rfl⟩, fun block hused ↦ ?_,
      fun block hmem ↦ ?_⟩
    · rw [allocateDirentBlock]
      simp only [hperBlock, hblock, dif_pos hlt, hnext]
      rw [if_pos (.inl (by omega))]
    · rw [← hgrown]
      exact hstores.addBlock hlt hclear hdev
    · rw [← hgrown]
      exact fits_addBlock hfits hlt (by have := harranged.numBlocks_lt; omega)
    · simp only [update_apply, hused, ite_self]
    · rw [← hgrown, directBlocks_addBlock, List.mem_append, List.mem_singleton] at hmem
      rcases hmem with hmem | rfl
      · exact .inl hmem
      · exact .inr hclear
  · have hsame : { inode with blocks := inode.blocks, blockCount := (entries.length + 7) / 7 } =
        inode := by
      rw [show (entries.length + 7) / 7 = inode.blockCount by omega]
    refine ⟨image, inode.blocks, ?_⟩
    simp only [hsame]
    refine ⟨?_, hstores, hfits, ⟨_, rfl⟩, fun _ hused ↦ hused, fun _ hmem ↦ .inl hmem⟩
    rw [allocateDirentBlock]
    simp only [hperBlock]
    rw [if_neg (by omega)]

theorem setEntry_of_le (block : Bytes) {idx : ℕ} (hidx : idx < 7)
    (hpos : 1024 ≤ position) (entry : Dirent) :
    setEntry block idx entry position = block position := by
  have hsize : DIRECTORY_ENTRY_SIZE = 144 := rfl
  rw [setEntry, setSlot, hsize, if_neg (by omega)]

/-- The block with the entry written, and then the inode. -/
def putEntry (super : Superblock) (image : Image) (inode : Inode) (block index : ℕ)
    (entry : Dirent) : Image :=
  writeInode super
    (writeBlockByNumber super image block
      (setEntry (readBlockByNumber super image block) index entry)) inode

theorem mounted_putEntry (harranged : super.Arranged) {inode : Inode} (hfits : inode.Fits)
    (hnum : inode.inodeNumber < super.numInodes) {block idx : ℕ} (hidx : idx < 7)
    (entry : Dirent) :
    let fs := mounted super image
    let next := mounted super (putEntry super image inode block idx entry)
    next.inodes inode.inodeNumber = inode ∧
      (∀ other, other ≠ inode.inodeNumber → other < super.numInodes →
        next.inodes other = fs.inodes other) ∧
      next.blocks = update fs.blocks block (setEntry (fs.blocks block) idx entry) := by
  simp only [putEntry, mounted_writeInode harranged hfits hnum,
    writeInode_inodes, writeInode_blocks]
  refine ⟨update_self .., fun other hother htable ↦ ?_, ?_⟩
  · rw [update_of_ne hother, inodes_writeBlockByNumber harranged htable]
  · rw [blocks_mounted]
    refine blocks_writeBlockByNumber fun pos hpos ↦ ?_
    rw [setEntry_of_le _ hidx hpos]
    exact blockBytes_of_le _ _ hpos

theorem writeDirent_spec (harranged : super.Arranged)
    (hused : ∀ other, image.usedInodes other = true → other < super.numInodes)
    (hlive : image.usedInodes num = true) (hholds : Holds (mounted super image) num entries)
    (hlen : entries.length < 70)
    (hcount : ((mounted super image).inodes num).blockCount = (entries.length + 6) / 7)
    (hfresh : entries.length % 7 = 0 → FreshBlock super image fresh) {read : Inode}
    (hread : read.inodeNumber = num)
    (hsize : read.size ≠ DIOSFS_MAX_FILES_IN_DIRECTORY) (entry : Dirent) :
    ∃ next blocks, writeDirent super image read entry fresh =
        some (next, (mounted super next).inodes num) ∧
      (mounted super next).inodes num =
        { (mounted super image).inodes num with
          size := entries.length + 1
          blockCount := (entries.length + 7) / 7
          blocks := blocks } ∧
      Holds (mounted super next) num (entries ++ [entry]) ∧
      Extends num (mounted super image) (mounted super next) ∧
      next.usedInodes = image.usedInodes ∧
      next.written = update image.written num ((mounted super next).inodes num) := by
  obtain ⟨marked, blocks, hallocate, hstores, hfits, ⟨bits, rfl⟩, hmarked, hown⟩ :=
    allocateDirentBlock_spec harranged (fits_mounted image num) hholds.stores hlen hcount hfresh
  obtain ⟨block, hblock, hmem, -, happended⟩ := hstores.append (by simp only; omega) entry
  subst hread
  set old := (mounted super image).inodes read.inodeNumber with hold
  have holdSize : old.size = entries.length := hholds.stores.size
  have holdNumber : old.inodeNumber = read.inodeNumber := hholds.inodeNumber
  have holdType : old.type = typeCode .directory := hholds.type
  clear_value old
  let grown : Inode :=
    { old with
      size := entries.length + 1
      blockCount := (entries.length + 7) / 7
      blocks := blocks }
  let marked : Image := { image with usedBlocks := bits }
  let next := putEntry super marked grown block (entries.length % 7) entry
  have hgrownFits : grown.Fits :=
    { hfits with size := show entries.length + 1 < 2 ^ 32 by omega }
  obtain ⟨hinode, hothers, hblocks⟩ := @mounted_putEntry super marked harranged grown hgrownFits
    (by rw [holdNumber]; exact hused _ hlive) block (entries.length % 7)
    (Nat.mod_lt _ (by decide)) entry
  rw [show grown.inodeNumber = read.inodeNumber from holdNumber] at hinode hothers
  refine ⟨next, blocks, ?_, hinode, ⟨?_, ?_, ?_⟩,
    ⟨hmarked, fun _ hother ↦ hother, fun other hne hother ↦ hothers other hne (hused other hother),
      fun other hother ↦ ?_, fun other hother hnot ↦ ?_⟩, rfl, ?_⟩
  · have hread : readInode super image read.inodeNumber = old := by rw [hold, inodes_mounted]
    have hblock : blocks[entries.length / 7]? = some block := hblock
    rw [show (mounted super next).inodes read.inodeNumber = grown from hinode]
    simp only [writeDirent, if_neg hsize, hread,
      maxFilesInDirentBlock_eq, hallocate, bind_eq_bind, bind_some, holdSize, hblock]
    rfl
  · rw [hinode]
    exact holdNumber
  · rw [hinode]
    exact holdType
  · rw [hinode]
    have hgrown : grown = { old with
        size := old.size + 1, blocks := blocks, blockCount := (entries.length + 7) / 7 } := by
      rw [holdSize]
    rw [hgrown]
    exact happended.congr rfl happended.marked
      (fun other _ ↦ congrFun hblocks other)
  · rw [hinode] at hother
    rw [← hold]
    exact hown other hother
  · rw [← hold] at hnot
    rw [hblocks, update_of_ne]
    · rfl
    · rintro rfl
      rcases hown other hmem with hmem | hclear
      · exact hnot hmem
      · exact absurd (hother.symm.trans hclear) (by decide)
  · rw [hinode, ← holdNumber]
    rfl

end WriteDirent

/-- What a creation without effect leaves as it was, in the directory with the inode `number`. -/
structure Unaffected (super : Superblock) (number : ℕ) (image after : Image) : Prop where
  inode : readInode super after number = readInode super image number
  blocks : ∀ block ∈ directBlocks (readInode super image number),
    readBlockByNumber super after block = readBlockByNumber super image block
  inodes : ∀ other < super.numInodes, readInode super after other = readInode super image other
  usedInodes : after.usedInodes = image.usedInodes
  usedBlocks : after.usedBlocks = image.usedBlocks

/-- **Creation in a full directory** never is without effect. `diosfs_write_dirent` returns before it
writes the entry, but the new inode is on the disk by then, and the directory is written back with the
size that was incremented for the entry. -/
theorem create_full {creation : Creation}
    (hnumber : (readInode super image creation.parent).inodeNumber = creation.parent)
    (hfull : (readInode super image creation.parent).size = 70) :
    ¬∃ after number, create super image creation = some (after, number) ∧
      Unaffected super creation.parent image after := by
  rintro ⟨after, number, hcreate, hunaffected⟩
  let old := readInode super image creation.parent
  let parent : Inode := { old with size := old.size + 1 }
  have hold : old.Fits := fits_ofBytes _
  have hfits : parent.Fits :=
    { hold with size := (congrArg (· + 1) hfull).trans_lt (by decide) }
  have hpar : readInode super after creation.parent = parent := by
    by_cases hname : MAX_FILENAME_LENGTH ≤ creation.name.chars.length
    · simp [create, hname] at hcreate
    · have hsize : parent.size = DIOSFS_MAX_FILES_IN_DIRECTORY :=
        congrArg (· + 1) hfull
      simp only [create, if_neg hname] at hcreate
      change (writeDirent super _ parent _ _).bind _ = _ at hcreate
      rw [writeDirent, if_pos hsize, bind_some] at hcreate
      cases hcreate
      rw [readInode_writeInode hfits, if_pos hnumber.symm]
  have hsize : old.size + 1 = old.size :=
    congrArg size (hpar.symm.trans hunaffected.inode)
  omega

/-- A directory with seventy entries in the first ten data blocks. -/
def fullInode : Inode :=
  { Inode.zero with size := 70, blockCount := 10, blocks := Vector.ofFn Fin.val }

/-- It is the only inode of a table of one block, and the data blocks are zero. -/
def fullDirectory : Superblock × Image :=
  let super : Superblock := ⟨12, 4, 0, 0, 0, 0, 1, 2⟩
  (super, writeInode super ⟨fun _ ↦ 0, fun number ↦ number == 0, fun block ↦ block < 10,
    fun _ ↦ Inode.zero⟩ fullInode)

def creationInFull : Creation := ⟨0, ⟨[], nofun⟩, DIOSFS_REG_FILE, 1, 10⟩

theorem readInode_fullDirectory : readInode fullDirectory.1 fullDirectory.2 0 = fullInode := by
  refine (readInode_writeInode ?_ 0).trans (if_pos rfl)
  constructor <;> decide

theorem create_full_fullDirectory :
    (readInode fullDirectory.1 fullDirectory.2 0).size = 70 ∧
      ¬∃ after number, create fullDirectory.1 fullDirectory.2 creationInFull = some (after, number) ∧
        Unaffected fullDirectory.1 0 fullDirectory.2 after :=
  have hsize := congrArg Inode.size readInode_fullDirectory
  ⟨hsize, @create_full fullDirectory.1 fullDirectory.2 creationInFull
    (congrArg Inode.inodeNumber readInode_fullDirectory) hsize⟩

/-- The creation returns, and the directory has a size of 71 then. -/
theorem create_fullDirectory :
    (create fullDirectory.1 fullDirectory.2 creationInFull).map (fun (after, number) ↦
      ((readInode fullDirectory.1 after 0).size, after.usedInodes 1, number)) =
      some (71, true, 1) := by
  decide +kernel

end DionysOS.Tools.Mkdiosfs
