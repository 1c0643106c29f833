import DionysOS.Drivers.Ramdisk
import DionysOS.Tools.MkdiosfsDirectories

/-!
# The inode table on the device

`diosfs_write_inode` and `diosfs_read_inode`, through the operations of the block device. A write
reads the block of four inodes, replaces one of them in memory and writes the block back. On a device
with the blocks of the table this replaces the bytes of the inode, at the place where `mkdiosfs` has
it.
-/

namespace DionysOS.Filesystem.Diosfs

open Foundation.ByteRecords Option Prod Inode
open Drivers.Block
open Tools.Mkdiosfs (inodeToByteOffset inodeToByteOffset_eq ofBytes_copy)
open Vfs (DIOSFS_BLOCKSIZE)

variable (super : Tools.Mkdiosfs.Superblock)

def inodeBlock (inodeNumber : ℕ) : ℕ := super.inodeStartPointer + inodeNumber / NUM_INODES_PER_BLOCK

def inodePlace (inodeNumber : ℕ) : ℕ := inodeNumber % NUM_INODES_PER_BLOCK * DIOSFS_INODE_SIZE

/-- What `kzmalloc` returns for a block. -/
def zeroedBlock : Buffer := ⟨DIOSFS_BLOCKSIZE, fun _ ↦ 0⟩

/-- `diosfs_write_inode`, which does not look at how the read ended. `none` is a fault, or the panic
after a write that failed. -/
def diosfsWriteInode (device : Device) (inode : Inode) : Option Device := do
  let blockNumber := inodeBlock super inode.inodeNumber
  let (_, block, device) ← blockRead device blockNumber 1 zeroedBlock
  let block := ⟨block.length,
    copy block.bytes (inodePlace inode.inodeNumber) inode.toBytes DIOSFS_INODE_SIZE⟩
  let (ret, device) ← blockWrite device blockNumber 1 block
  if ret = .success then some device else none

def diosfsReadInode (device : Device) (inodeNumber : ℕ) : Option (Inode × Device) := do
  let (ret, block, device) ← blockRead device (inodeBlock super inodeNumber) 1 zeroedBlock
  if ret = .success then
    some (Inode.ofBytes fun position ↦ block.bytes (inodePlace inodeNumber + position), device)
  else none

variable {super : Tools.Mkdiosfs.Superblock} {device : Device} {inode : Inode} {inodeNumber ino : ℕ}

theorem inodeBlock_mul_add (super : Tools.Mkdiosfs.Superblock) (inodeNumber : ℕ) :
    inodeBlock super inodeNumber * DIOSFS_BLOCKSIZE + inodePlace inodeNumber =
      inodeToByteOffset super inodeNumber := by
  rw [inodeToByteOffset_eq]
  simp only [inodeBlock, inodePlace, NUM_INODES_PER_BLOCK, DIOSFS_BLOCKSIZE, DIOSFS_INODE_SIZE]
  omega

theorem inodePlace_add_le (ino : ℕ) :
    inodePlace ino + DIOSFS_INODE_SIZE ≤ DIOSFS_BLOCKSIZE := by
  simp only [inodePlace, NUM_INODES_PER_BLOCK, DIOSFS_BLOCKSIZE, DIOSFS_INODE_SIZE]
  omega

section

variable (hsize : device.ramdisk.blockSize = DIOSFS_BLOCKSIZE)
include hsize

theorem diosfsReadInode_eq (hdev : OnDevice device.ramdisk (inodeBlock super inodeNumber) 1) :
    (diosfsReadInode super device inodeNumber).map fst = some (ofBytes fun pos ↦
      device.ramdisk.memory (inodeToByteOffset super inodeNumber + pos)) := by
  have hread := @blockRead_of_le device zeroedBlock _ 1 hdev (by rw [hsize]; decide)
    (by rw [hsize]; decide)
  simp only [diosfsReadInode, hread, bind_eq_bind, bind_some, if_true, map_some, some.injEq]
  refine ofBytes_congr fun pos hpos ↦ ?_
  have hplace := inodePlace_add_le inodeNumber
  simp only [Device.loaded, hsize, ← inodeBlock_mul_add, add_assoc]
  rw [copy, if_pos (by omega), Nat.sub_zero]

theorem diosfsWriteInode_eq
    (hdev : OnDevice device.ramdisk (inodeBlock super inode.inodeNumber) 1) :
    (diosfsWriteInode super device inode).map Device.ramdisk = some { device.ramdisk with
      memory := copy device.ramdisk.memory (inodeToByteOffset super inode.inodeNumber) inode.toBytes
        DIOSFS_INODE_SIZE } := by
  have hread := @blockRead_of_le device zeroedBlock _ 1 hdev (by rw [hsize]; decide)
    (by rw [hsize]; decide)
  let block := device.loaded (inodeBlock super inode.inodeNumber) 1 zeroedBlock
  have hwrite := @blockWrite_of_le
    { device with transfers := device.transfers ++ [(inodeBlock super inode.inodeNumber, 1)] }
    ⟨block.length, copy block.bytes (inodePlace inode.inodeNumber) inode.toBytes DIOSFS_INODE_SIZE⟩
    _ 1 hdev (by rw [hsize]; decide) (by rw [hsize]; exact le_of_eq rfl)
  have hstored := stored_edit_loaded device
    (device.transfers ++ [(inodeBlock super inode.inodeNumber, 1)])
    (inodeBlock super inode.inodeNumber) 1 zeroedBlock DIOSFS_BLOCKSIZE fun place byte ↦
      copy (fun _ ↦ byte) (inodePlace inode.inodeNumber) inode.toBytes DIOSFS_INODE_SIZE place
  have hcopy := @copy_copy_self device.ramdisk.memory (inodePlace inode.inodeNumber)
    DIOSFS_INODE_SIZE (1 * device.ramdisk.blockSize)
    (inodeBlock super inode.inodeNumber * device.ramdisk.blockSize) inode.toBytes
    (by rw [hsize, one_mul]; exact inodePlace_add_le inode.inodeNumber)
  nth_rewrite 4 [hsize] at hcopy
  rw [inodeBlock_mul_add] at hcopy
  simp only [diosfsWriteInode, hread, bind_eq_bind, bind_some]
  rw [hwrite, bind_some, if_pos rfl, map_some]
  exact (congrArg (fun device ↦ some device.ramdisk) hstored).trans
    (congrArg (fun mem ↦ some { device.ramdisk with memory := mem }) hcopy)

end

/-- **The inode table.** A write of an inode and a read of any other or of the same one, on a device
that has their blocks: the read gives what was written, or what was there before, no other byte of the
device changes, and the byte of the inode is the one that `mkdiosfs` uses. -/
theorem diosfsReadInode_diosfsWriteInode (hblockSize : device.ramdisk.blockSize = DIOSFS_BLOCKSIZE)
    (hfits : inode.Fits) (hwritten : OnDevice device.ramdisk (inodeBlock super inode.inodeNumber) 1)
    (hread : OnDevice device.ramdisk (inodeBlock super inodeNumber) 1) :
    ∃ previous after, (diosfsReadInode super device inodeNumber).map Prod.fst = some previous ∧
      diosfsWriteInode super device inode = some after ∧
      (diosfsReadInode super after inodeNumber).map Prod.fst =
        some (if inodeNumber = inode.inodeNumber then inode else previous) ∧
      (∀ position, position < inodeToByteOffset super inode.inodeNumber ∨
          inodeToByteOffset super inode.inodeNumber + DIOSFS_INODE_SIZE ≤ position →
        after.ramdisk.memory position = device.ramdisk.memory position) ∧
      inodeBlock super inode.inodeNumber * device.ramdisk.blockSize + inodePlace inode.inodeNumber =
        inodeToByteOffset super inode.inodeNumber := by
  obtain ⟨after, hafter, hramdisk⟩ :=
    map_eq_some_iff.mp (diosfsWriteInode_eq hblockSize hwritten)
  have hread' : OnDevice after.ramdisk (inodeBlock super inodeNumber) 1 := by
    rw [hramdisk]
    exact ⟨hread.blockSize_pos, hread.length_lt, hread.fits⟩
  have hblockSize' : after.ramdisk.blockSize = DIOSFS_BLOCKSIZE := by rw [hramdisk, ← hblockSize]
  refine ⟨_, after, diosfsReadInode_eq hblockSize hread, hafter, ?_, fun position houtside ↦ ?_, ?_⟩
  · rw [diosfsReadInode_eq hblockSize' hread', hramdisk]
    exact congrArg some (ofBytes_copy _ hfits _)
  · rw [hramdisk]
    exact copy_of_outside houtside
  · rw [hblockSize, inodeBlock_mul_add]

/-- A ramdisk of one page, whose table begins at block 1. -/
theorem diosfsReadInode_diosfsWriteInode_onePage :
    let super : Tools.Mkdiosfs.Superblock := ⟨4, 12, 0, 0, 0, 0, 1, 4⟩
    let device : Device := ⟨⟨1, 1024, fun _ ↦ 0⟩, []⟩
    ∃ after, diosfsWriteInode super device { Inode.zero with inodeNumber := 6 } = some after ∧
      (diosfsReadInode super after 6).map fst = some { Inode.zero with inodeNumber := 6 } := by
  intro super device
  obtain ⟨previous, after, -, hafter, hread, -⟩ := @diosfsReadInode_diosfsWriteInode super device
    { Inode.zero with inodeNumber := 6 } 6 rfl { Inode.fits_zero with inodeNumber := by decide }
    ⟨by decide, by decide, by decide⟩ ⟨by decide, by decide, by decide⟩
  exact ⟨after, hafter, hread⟩

end DionysOS.Filesystem.Diosfs
