import DionysOS.Filesystem.DiosfsInodeRuns
import DionysOS.Tools.MkdiosfsLayout

/-!
# Allocating inodes in an image

`diosfs_get_free_inode_and_mark_bitmap` of `mkdiosfs.c` works on `disk_buffer` itself. It has the scan
of the kernel's function, and it also marks the bit in the first block of the bitmap. Runs of either
function are exact under the same condition: there are enough clear bits in the first block.
-/

namespace DionysOS.Tools.Mkdiosfs

open Foundation.ByteRecords Option
open Foundation.Bitmap
open Drivers.Block (Buffer PAGE_SIZE)
open Filesystem.Diosfs (Inode)
open Filesystem.DiosfsDisk (AllocatesInodes BitmapType Placed allocateInode allocatesInodes_iff placeOf
  scanBuffer scanBuffer_eq scanLimit wrap wrap_of_lt DIOSFS_NUM_INODE_POINTER_BLOCKS)

/-- `diosfs_get_free_inode_and_mark_bitmap`, on a `disk_buffer` with its length. -/
def getFreeInodeAndMarkBitmap (inodeBitmapStart : ℕ) (disk : Buffer) : Option (Inode × Buffer) := do
  let first := DIOSFS_BLOCKSIZE * inodeBitmapStart
  let buffer : Buffer := ⟨disk.length - first, fun position ↦ disk.bytes (first + position)⟩
  let (block, byte, bit) ← scanBuffer buffer DIOSFS_BLOCKSIZE DIOSFS_NUM_INODE_POINTER_BLOCKS
    (wrap DIOSFS_BLOCKSIZE)
  let inodeNumber := block * DIOSFS_BLOCKSIZE * 8 + byte * 8 + bit
  some ({ Inode.zero with inodeNumber := inodeNumber % 2 ^ 16 },
    { disk with bytes := mark disk.bytes (first + byte) bit })

/-- An allocation of which only the field `inode_number` is kept. -/
def allocateImageInode (inodeBitmapStart : ℕ) (_ : Unit) (disk : Buffer) : Option (ℕ × Buffer) :=
  (getFreeInodeAndMarkBitmap inodeBitmapStart disk).map fun result ↦ (result.1.inodeNumber, result.2)

def inodeBit (inodeBitmapStart : ℕ) (disk : Buffer) (number : ℕ) : Bool :=
  bitOf disk.bytes (8 * (DIOSFS_BLOCKSIZE * inodeBitmapStart) + number)

def BITS_PER_BLOCK : ℕ := 8 * DIOSFS_BLOCKSIZE

variable {inodeBitmapStart number num : ℕ} {disk after : Buffer}

def marked (inodeBitmapStart : ℕ) (disk : Buffer) (number : ℕ) : Buffer :=
  ⟨disk.length, mark disk.bytes
    (DIOSFS_BLOCKSIZE * inodeBitmapStart + number / 8 % DIOSFS_BLOCKSIZE) (number % 8)⟩

theorem inodeBit_marked (inodeBitmapStart : ℕ) (disk : Buffer) (num pos : ℕ) :
    inodeBit inodeBitmapStart (marked inodeBitmapStart disk num) pos =
      (inodeBit inodeBitmapStart disk pos || pos == num % BITS_PER_BLOCK) := by
  have hmod : num % BITS_PER_BLOCK = 8 * (num / 8 % DIOSFS_BLOCKSIZE) + num % 8 := by
    rw [BITS_PER_BLOCK, Nat.mod_mul, add_comm]
  have hsame : (8 * (DIOSFS_BLOCKSIZE * inodeBitmapStart) + pos ==
      8 * (DIOSFS_BLOCKSIZE * inodeBitmapStart + num / 8 % DIOSFS_BLOCKSIZE) + num % 8) =
      (pos == num % BITS_PER_BLOCK) :=
    Bool.eq_iff_iff.mpr (by simp only [beq_iff_eq, hmod]; omega)
  rw [inodeBit, marked, bitOf_mark _ _ (Nat.mod_lt _ (by decide)), hsame, inodeBit]

/-- The allocator as one that scans, in an image of a length. -/
def imageScanner (inodeBitmapStart length : ℕ) : Scanner Unit Buffer :=
  ⟨fun _ disk ↦ inodeBit inodeBitmapStart disk,
    8 * min ((DIOSFS_NUM_INODE_POINTER_BLOCKS + 1) * DIOSFS_BLOCKSIZE)
      (length - DIOSFS_BLOCKSIZE * inodeBitmapStart),
    (· % 2 ^ 16), marked inodeBitmapStart⟩

theorem allocateImageInode_eq (inodeBitmapStart : ℕ) (disk : Buffer) :
    allocateImageInode inodeBitmapStart () disk =
      (imageScanner inodeBitmapStart disk.length).allocate () disk := by
  have hbits : bitOf (fun pos ↦ disk.bytes (DIOSFS_BLOCKSIZE * inodeBitmapStart + pos)) =
      inodeBit inodeBitmapStart disk := by
    funext number
    rw [inodeBit, bitOf, bitOf, Nat.mul_add_div (by decide), Nat.mul_add_mod]
  have hscan := @scanBuffer_eq ⟨disk.length - DIOSFS_BLOCKSIZE * inodeBitmapStart,
    fun pos ↦ disk.bytes (DIOSFS_BLOCKSIZE * inodeBitmapStart + pos)⟩ DIOSFS_BLOCKSIZE
    DIOSFS_NUM_INODE_POINTER_BLOCKS (wrap DIOSFS_BLOCKSIZE) (by decide) wrap_of_lt
  rw [scanLimit, hbits] at hscan
  rw [allocateImageInode, getFreeInodeAndMarkBitmap, hscan, Scanner.allocate, imageScanner]
  cases firstFree (inodeBit inodeBitmapStart disk) _ 0 with
  | none => rfl
  | some number =>
    have hnum : number / 8 / DIOSFS_BLOCKSIZE * DIOSFS_BLOCKSIZE * 8 +
        number / 8 % DIOSFS_BLOCKSIZE * 8 + number % 8 = number := by
      rw [← add_mul, Nat.div_add_mod' _ DIOSFS_BLOCKSIZE, Nat.div_add_mod']
    simp only [map_some, placeOf, bind_eq_bind, bind_some, hnum, marked]

/-- The bits in front of the bitmap and the length stay. -/
structure ReachedImage (inodeBitmapStart : ℕ) (disk after : Buffer) : Prop where
  length : after.length = disk.length
  front : ∀ position < 8 * (DIOSFS_BLOCKSIZE * inodeBitmapStart),
    bitOf after.bytes position = bitOf disk.bytes position

theorem ReachedImage.marked (hreached : ReachedImage inodeBitmapStart disk after) (num : ℕ) :
    ReachedImage inodeBitmapStart disk (marked inodeBitmapStart after num) := by
  refine ⟨hreached.length, fun pos hpos ↦ ?_⟩
  rw [Mkdiosfs.marked, bitOf_mark _ _ (Nat.mod_lt _ (by decide)),
    beq_eq_false_iff_ne.mpr (by omega), Bool.or_false]
  exact hreached.front pos hpos

theorem imageScanner_sound (hlen : DIOSFS_BLOCKSIZE * (inodeBitmapStart + 1) ≤ disk.length) :
    (imageScanner inodeBitmapStart disk.length).Sound (inodeBit inodeBitmapStart)
      (ReachedImage inodeBitmapStart disk) BITS_PER_BLOCK where
  le := by
    simp only [imageScanner, BITS_PER_BLOCK, DIOSFS_NUM_INODE_POINTER_BLOCKS, DIOSFS_BLOCKSIZE] at *
    omega
  seen _ _ := rfl
  name hnum := Nat.mod_eq_of_lt (lt_of_lt_of_le hnum (by decide))
  keeps num hreached := hreached.marked num
  set {state num} _ hnum := by
    funext pos
    refine (inodeBit_marked inodeBitmapStart state num pos).trans ?_
    rw [Nat.mod_eq_of_lt hnum, or_beq_eq_update]
  frame {state num pos} _ _ hposition := by
    have hmod : num % BITS_PER_BLOCK < BITS_PER_BLOCK := Nat.mod_lt _ (by decide)
    refine (inodeBit_marked inodeBitmapStart state num pos).trans ?_
    rw [beq_eq_false_iff_ne.mpr (by omega), Bool.or_false]

/-- The numbers in the inodes are different, their bits were clear, and exactly these bits of the image
are now set. -/
structure AllocatesImageInodes (inodeBitmapStart : ℕ) (disk after : Buffer) (numbers : List ℕ) :
    Prop where
  taken : Taken (inodeBit inodeBitmapStart disk) (inodeBit inodeBitmapStart after) numbers
  front : ∀ position < 8 * (DIOSFS_BLOCKSIZE * inodeBitmapStart),
    bitOf after.bytes position = bitOf disk.bytes position

theorem allocatesImageInodes_iff
    (hlen : DIOSFS_BLOCKSIZE * (inodeBitmapStart + 1) ≤ disk.length) (calls : List Unit) :
    (∃ numbers after, takeEach (allocateImageInode inodeBitmapStart) calls disk =
        some (numbers, after) ∧ AllocatesImageInodes inodeBitmapStart disk after numbers) ↔
      calls.length ≤ (clearBits (inodeBit inodeBitmapStart disk) BITS_PER_BLOCK).length := by
  have hreached : ReachedImage inodeBitmapStart disk disk := ⟨rfl, fun _ _ ↦ rfl⟩
  have hsound := imageScanner_sound hlen
  have hstep : ∀ {call : Unit} {state}, ReachedImage inodeBitmapStart disk state →
      allocateImageInode inodeBitmapStart call state =
        (imageScanner inodeBitmapStart disk.length).allocate call state := by
    intro call state hreached
    rw [allocateImageInode_eq, hreached.length]
  rw [← hsound.taken_takeEach_iff hstep hreached]
  constructor
  · rintro ⟨numbers, after, hrun, hallocates⟩
    exact ⟨numbers, after, hrun, hallocates.taken⟩
  · rintro ⟨numbers, after, hrun, htaken⟩
    exact ⟨numbers, after, hrun, htaken, (hsound.takeEach_frame hstep hreached hrun).2.1.front⟩

/-- Runs of inode allocations are exact, in the kernel and in the builder, as long as there are clear
bits in the first block of the bitmap; in the kernel the bitmap has to fit into the buffer as well. -/
theorem allocateInodes_exact_iff {fs : Filesystem.DiosfsDisk.Context} (hplaced : Placed fs .inode)
    (hblockSize : fs.superblock.blockSize = Filesystem.Vfs.DIOSFS_BLOCKSIZE) (garbages : List Bytes)
    (hlength : DIOSFS_BLOCKSIZE * (inodeBitmapStart + 1) ≤ disk.length) (calls : List Unit) :
    ((∃ numbers after, takeEach allocateInode garbages fs = some (numbers, after) ∧
        AllocatesInodes fs after numbers) ↔
      garbages = [] ∨
        fs.superblock.inodeBitmapSize * fs.superblock.blockSize ≤ PAGE_SIZE * 16 ∧
          garbages.length ≤
            (clearBits (fs.bitmapBit .inode) fs.superblock.reachableInodes).length) ∧
    ((∃ numbers after, takeEach (allocateImageInode inodeBitmapStart) calls disk =
        some (numbers, after) ∧ AllocatesImageInodes inodeBitmapStart disk after numbers) ↔
      calls.length ≤ (clearBits (inodeBit inodeBitmapStart disk) BITS_PER_BLOCK).length) :=
  ⟨allocatesInodes_iff hplaced hblockSize, allocatesImageInodes_iff hlength calls⟩

/-- A disk of two pages with an inode bitmap of two blocks; the first one is full or empty. -/
def twoBlockBitmap (full : Bool) : Filesystem.DiosfsDisk.Context where
  superblock := ⟨Filesystem.Vfs.DIOSFS_BLOCKSIZE, 2, 2, 1, 3⟩
  device := ⟨⟨2, Filesystem.Vfs.DIOSFS_BLOCKSIZE, fun position ↦
    if full ∧ position / 1024 = 1 then 0xFF else 0⟩, []⟩

theorem placed_twoBlockBitmap (full : Bool) : Placed (twoBlockBitmap full) .inode := by
  refine ⟨rfl, ?_, ?_, ?_⟩ <;> cases full <;> decide

theorem allocateInodes_exact_two :
    (∃ numbers after, takeEach allocateInode [fun _ ↦ 0, fun _ ↦ 0] (twoBlockBitmap false) =
        some (numbers, after) ∧ AllocatesInodes (twoBlockBitmap false) after numbers) ∧
      ∃ numbers after, takeEach (allocateImageInode 1) [(), ()] ⟨8192, fun _ ↦ 0⟩ =
        some (numbers, after) ∧ AllocatesImageInodes 1 ⟨8192, fun _ ↦ 0⟩ after numbers := by
  have hexact := @allocateInodes_exact_iff 1 ⟨8192, fun _ ↦ 0⟩ _ (placed_twoBlockBitmap false) rfl
    [fun _ ↦ 0, fun _ ↦ 0] (by decide) [(), ()]
  refine ⟨hexact.1.mpr (.inr ⟨by decide, ?_⟩), hexact.2.mpr ?_⟩
  · exact le_length_clearBits (by decide) fun bit _ ↦ by
      simp [Filesystem.DiosfsDisk.Context.bitmapBit, Filesystem.DiosfsDisk.Context.bit, twoBlockBitmap,
        bitOf]
  · exact le_length_clearBits (by decide) fun bit _ ↦ by simp [inodeBit, bitOf]

/-- With the first block full, two allocations return the same number. -/
theorem allocateInodes_not_exact :
    Placed (twoBlockBitmap true) .inode ∧
      (takeEach allocateInode [fun _ ↦ 0, fun _ ↦ 0] (twoBlockBitmap true)).map Prod.fst =
        some [8192, 8192] ∧
      ¬∃ numbers after, takeEach allocateInode [fun _ ↦ 0, fun _ ↦ 0] (twoBlockBitmap true) =
        some (numbers, after) ∧ AllocatesInodes (twoBlockBitmap true) after numbers := by
  have hnumbers : (takeEach allocateInode [fun _ ↦ 0, fun _ ↦ 0] (twoBlockBitmap true)).map
      Prod.fst = some [8192, 8192] := by decide +kernel
  refine ⟨placed_twoBlockBitmap true, hnumbers, ?_⟩
  rintro ⟨numbers, after, hrun, hallocates⟩
  rw [hrun, map_some, some.injEq] at hnumbers
  have hnodup := hallocates.taken.nodup
  rw [show numbers = [8192, 8192] from hnumbers] at hnodup
  exact absurd hnodup (by decide)

end DionysOS.Tools.Mkdiosfs
