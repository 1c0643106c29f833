import Mathlib.Algebra.Order.Ring.Nat
import Mathlib.Data.BitVec
import Mathlib.Data.Set.Lattice
import Mathlib.Order.CompletePartialOrder
import Mathlib.Order.Nat

/-!
# The layout of a new filesystem image

`mkdiosfs` computes the sizes of five regions from the size of the image in megabytes: the
superblock, the two bitmaps, the inode table and the data blocks. This module follows `main` up to
the point where the image is zeroed. Sizes are 64-bit in the source and stay far below that bound
for the sizes `main` accepts, so they are natural numbers here.

`block_bitmap_pointers_start` is computed from the global `inode_bitmap_start` before that global is
assigned. The block bitmap therefore starts one block early. `layout_unsound` follows: no accepted
size gives a sound layout.
-/

namespace DionysOS.Tools.Mkdiosfs

def DIOSFS_BLOCKSIZE : ℕ := 1024

/-- `sizeof(struct diosfs_inode)`. -/
def DIOSFS_INODE_SIZE : ℕ := 256

def NUM_INODES_PER_BLOCK : ℕ := DIOSFS_BLOCKSIZE / DIOSFS_INODE_SIZE

structure SizeCalculation where
  totalBlocks : ℕ
  totalInodes : ℕ
  totalDataBlocks : ℕ
  totalBlockBitmapBlocks : ℕ
  totalInodeBitmapBlocks : ℕ
deriving DecidableEq, Repr

/-- `diosfs_get_size_info`; a size of zero exits. -/
def diosfsGetSizeInfo (megabytes blockSize : ℕ) : Option SizeCalculation :=
  if megabytes = 0 then none
  else
    let sizeBytes := megabytes * 2 ^ 20
    let totalBlocks := sizeBytes / blockSize
    let padding := totalBlocks / 150
    let split := totalBlocks / 32 - padding
    let totalInodes := split * (blockSize / DIOSFS_INODE_SIZE)
    let totalDataBlocks := (totalBlocks - split) - padding
    some {
      totalBlocks := totalBlocks
      totalInodes := totalInodes
      totalDataBlocks := totalDataBlocks
      totalBlockBitmapBlocks := totalDataBlocks / blockSize / 8
      totalInodeBitmapBlocks := totalInodes / blockSize / 8 }

/-- `struct diosfs_superblock`, as far as it describes the layout. -/
structure Superblock where
  numBlocks : ℕ
  numInodes : ℕ
  inodeBitmapSize : ℕ
  blockBitmapSize : ℕ
  inodeBitmapPointersStart : ℕ
  blockBitmapPointersStart : ℕ
  inodeStartPointer : ℕ
  blockStartPointer : ℕ
deriving DecidableEq, Repr

/-- The superblock that `main` fills in. `inodeBitmapStart` is the global of that name, which
`main` assigns only afterwards. -/
def superblock (size : SizeCalculation) (inodeBitmapStart : ℕ) : Superblock :=
  let inodeStartPointer := size.totalInodeBitmapBlocks + size.totalBlockBitmapBlocks + 1
  { numBlocks := size.totalBlocks
    numInodes := size.totalInodes
    inodeStartPointer := inodeStartPointer
    blockStartPointer := inodeStartPointer + size.totalInodes / NUM_INODES_PER_BLOCK
    inodeBitmapPointersStart := 1
    blockBitmapPointersStart := inodeBitmapStart + size.totalInodeBitmapBlocks
    blockBitmapSize := size.totalBlockBitmapBlocks
    inodeBitmapSize := size.totalInodeBitmapBlocks }

/-- The blocks that `main` writes while it lays out the image: the superblock, then zeroed blocks
over the four other regions. -/
def zeroedBlocks (size : SizeCalculation) (super : Superblock) : List ℕ :=
  [0] ++
    (List.range size.totalInodeBitmapBlocks).map (· + super.inodeBitmapPointersStart) ++
    (List.range size.totalBlockBitmapBlocks).map (· + super.blockBitmapPointersStart) ++
    (List.range (size.totalInodes / NUM_INODES_PER_BLOCK)).map (· + super.inodeStartPointer) ++
    (List.range (size.totalBlocks + super.blockStartPointer)).map (· + super.blockStartPointer)

/-- A laid out image: its sizes, its superblock and the length of `disk_buffer` in bytes. -/
structure Layout where
  size : SizeCalculation
  super : Superblock
  bufferBytes : ℕ
deriving DecidableEq, Repr

/-- `main` up to the zeroing of the image. Sizes of 0 and above 8000 exit. -/
def layout (megabytes : ℕ) : Option Layout :=
  if 8000 < megabytes then none
  else do
    let size ← diosfsGetSizeInfo megabytes DIOSFS_BLOCKSIZE
    let sizeBytes := megabytes * 2 ^ 20
    -- `inode_bitmap_start` is still zero here.
    pure ⟨size, superblock size 0, sizeBytes + sizeBytes / 20⟩

def Layout.regions (image : Layout) : List (Set ℕ) :=
  let super := image.super
  [Set.Ico 0 1,
    Set.Ico super.inodeBitmapPointersStart (super.inodeBitmapPointersStart + super.inodeBitmapSize),
    Set.Ico super.blockBitmapPointersStart (super.blockBitmapPointersStart + super.blockBitmapSize),
    Set.Ico super.inodeStartPointer
      (super.inodeStartPointer + super.numInodes / NUM_INODES_PER_BLOCK),
    Set.Ici super.blockStartPointer]

/-- The regions are apart, the bitmaps have a bit for every inode and every data block, and the
zeroing stays inside `disk_buffer`. -/
structure Layout.Sound (image : Layout) : Prop where
  disjoint : image.regions.Pairwise Disjoint
  inodeBits : image.super.numInodes ≤ image.super.inodeBitmapSize * DIOSFS_BLOCKSIZE * 8
  blockBits : image.size.totalDataBlocks ≤ image.super.blockBitmapSize * DIOSFS_BLOCKSIZE * 8
  zeroing : ∀ block ∈ zeroedBlocks image.size image.super,
    (block + 1) * DIOSFS_BLOCKSIZE ≤ image.bufferBytes

/-- A superblock with a block bitmap has it start in another region: in the last block of the
inode bitmap, or in the superblock if there is no inode bitmap. -/
theorem blockBitmap_overlaps (size : SizeCalculation) (bytes : ℕ)
    (hbitmap : size.totalBlockBitmapBlocks ≠ 0) :
    ¬ (Layout.mk size (superblock size 0) bytes).regions.Pairwise Disjoint := by
  intro hdisj
  simp only [Layout.regions, superblock, List.pairwise_cons, List.mem_cons] at hdisj
  obtain ⟨hsuper, hinodes, -⟩ := hdisj
  have hstart : size.totalInodeBitmapBlocks ∈ Set.Ico (0 + size.totalInodeBitmapBlocks)
      (0 + size.totalInodeBitmapBlocks + size.totalBlockBitmapBlocks) := by
    rw [Set.mem_Ico]
    omega
  by_cases hzero : size.totalInodeBitmapBlocks = 0
  · have hzeroBlock : size.totalInodeBitmapBlocks ∈ Set.Ico 0 1 := by
      rw [Set.mem_Ico]
      omega
    exact Set.disjoint_left.mp (hsuper _ (.inr (.inl rfl))) hzeroBlock hstart
  · have hlast : size.totalInodeBitmapBlocks ∈ Set.Ico 1 (1 + size.totalInodeBitmapBlocks) := by
      rw [Set.mem_Ico]
      omega
    exact Set.disjoint_left.mp (hinodes _ (.inl rfl)) hlast hstart

theorem totalDataBlocks_pos {megabytes : ℕ} {size : SizeCalculation}
    (hsize : diosfsGetSizeInfo megabytes DIOSFS_BLOCKSIZE = some size) :
    0 < size.totalDataBlocks := by
  unfold diosfsGetSizeInfo at hsize
  split at hsize
  · cases hsize
  · cases hsize
    simp only [DIOSFS_BLOCKSIZE]
    omega

/-- **No size gives a sound layout.** With a block bitmap the regions overlap, and without one
the data blocks have no bits. -/
theorem layout_unsound (megabytes : ℕ) (image : Layout) (himage : layout megabytes = some image) :
    ¬ image.Sound := by
  intro hsound
  unfold layout at himage
  split at himage
  · cases himage
  · obtain ⟨size, hsize, hpure⟩ := Option.bind_eq_some_iff.mp himage
    cases hpure
    by_cases hbitmap : size.totalBlockBitmapBlocks = 0
    · have hbits := hsound.blockBits
      have hpos := totalDataBlocks_pos hsize
      simp only [superblock, hbitmap, zero_mul, Nat.le_zero] at hbits
      omega
    · exact blockBitmap_overlaps size _ hbitmap hsound.disjoint

def layout250 : Layout where
  size := ⟨256000, 25176, 248000, 30, 3⟩
  super := superblock ⟨256000, 25176, 248000, 30, 3⟩ 0
  bufferBytes := 275251200

theorem layout_unsound_250 : layout 250 = some layout250 ∧ ¬ layout250.Sound :=
  ⟨by decide, layout_unsound 250 layout250 (by decide)⟩

/-- In an image of 250 megabytes, block 3 belongs to both bitmaps. -/
theorem layout250_bitmaps_overlap :
    layout 250 = some layout250 ∧
      3 ∈ Set.Ico layout250.super.inodeBitmapPointersStart
        (layout250.super.inodeBitmapPointersStart + layout250.super.inodeBitmapSize) ∧
      3 ∈ Set.Ico layout250.super.blockBitmapPointersStart
        (layout250.super.blockBitmapPointersStart + layout250.super.blockBitmapSize) ∧
      ¬ layout250.Sound :=
  ⟨by decide, by decide, by decide, fun hsound ↦
    blockBitmap_overlaps _ _ (by decide) hsound.disjoint⟩

end DionysOS.Tools.Mkdiosfs
