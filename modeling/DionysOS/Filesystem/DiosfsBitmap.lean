import DionysOS.Drivers.Ramdisk
import DionysOS.Filesystem.Diosfs
import DionysOS.Foundation.Bitmap

/-!
# The bitmaps of diosfs on their device

`diosfs_get_free_block_and_mark_bitmap`, `diosfs_get_free_inode_and_mark_bitmap` and
`diosfs_clear_bitmap` over the bytes of the device, with the buffers they work on. `none` is a panic
or an access outside a buffer or the ramdisk. The bytes that `kmalloc` leaves in a buffer are a
parameter.

`char` is signed: a byte is compared with `0xFF`, and its bits are tested, after sign extension.
-/

namespace DionysOS.Filesystem.DiosfsDisk

open Foundation.ByteRecords Option List
open Foundation.Bitmap
open Drivers.Block
open Diosfs (Inode)

def DIOSFS_NUM_INODE_POINTER_BLOCKS : ℕ := 16
def DIOSFS_NUM_BLOCK_POINTER_BLOCKS : ℕ := 128

/-- The fields of `struct diosfs_superblock` about the bitmaps. -/
structure Superblock where
  blockSize : ℕ
  inodeBitmapSize : ℕ
  blockBitmapSize : ℕ
  inodeBitmapPointersStart : ℕ
  blockBitmapPointersStart : ℕ
deriving DecidableEq, Repr

/-- `struct diosfs_filesystem_context`. -/
structure Context where
  superblock : Superblock
  device : Device

/-- The bit of the disk with a number, counted from its start. -/
def Context.bit (fs : Context) (position : ℕ) : Bool := bitOf fs.device.ramdisk.memory position

/-- The loop over `i`: the first bit from 0 to 8 that is clear in a sign-extended byte. -/
def freeBit (value : Byte) : Option ℕ :=
  (range 9).find? fun bit ↦ !(value.signExtend 32).getLsbD bit

/-- `if (byte == block_size) { block++; byte = 0; }`. -/
def wrap (blockSize : ℕ) (place : ℕ × ℕ) : ℕ × ℕ :=
  if place.2 = blockSize then (place.1 + 1, 0) else place

/-- The loop `while (1)` that looks for a clear bit, with a number of rounds to go; it panics behind
`lastBlock`. `next` is what a round ends with. Returns the block, the byte and the bit. -/
def scan (buffer : Buffer) (blockSize lastBlock : ℕ) (next : ℕ × ℕ → ℕ × ℕ) :
    ℕ → ℕ × ℕ → Option (ℕ × ℕ × ℕ)
  | 0, _ => none
  | rounds + 1, (block, byte) =>
      let index := block * blockSize + byte
      if buffer.length ≤ index then none
      else if (buffer.bytes index).signExtend 32 ≠ 0xFF then
        match freeBit (buffer.bytes index) with
        | some bit => some (block, byte, bit)
        | none =>
            let place := wrap blockSize (block, byte + 1)
            if lastBlock < place.1 then none
            else scan buffer blockSize lastBlock next rounds (next place)
      else scan buffer blockSize lastBlock next rounds (next (block, byte + 1))

/-- The scan from the start of the buffer. It takes one round for each byte up to the panic. -/
def scanBuffer (buffer : Buffer) (blockSize lastBlock : ℕ) (next : ℕ × ℕ → ℕ × ℕ) :
    Option (ℕ × ℕ × ℕ) :=
  scan buffer blockSize lastBlock next ((lastBlock + 1) * blockSize) (0, 0)

/-- The body that the two functions share: `count` blocks from `start` on are read, the first clear bit
is set at its place in the byte `markedByte block byte`, and the blocks are written back. Returns the
number of the bit. -/
def markFirstFree (fs : Context) (start count lastBlock : ℕ) (next : ℕ × ℕ → ℕ × ℕ)
    (markedByte : ℕ → ℕ → ℕ) (buffer : Buffer) : Option (ℕ × Context) := do
  let blockSize := fs.superblock.blockSize
  let (status, buffer, device) ← blockRead fs.device start count buffer
  if status ≠ .success then none
  else
    let (block, byte, bit) ← scanBuffer buffer blockSize lastBlock next
    let buffer := { buffer with bytes := mark buffer.bytes (markedByte block byte) bit }
    let (status, device) ← blockWrite device start count buffer
    if status ≠ .success then none
    else some (block * blockSize * 8 + byte * 8 + bit, ⟨fs.superblock, device⟩)

/-- `diosfs_get_free_block_and_mark_bitmap`. It reads and writes as many blocks as the number of the
block that the bitmap starts at. -/
def getFreeBlockAndMarkBitmap (garbage : Bytes) (fs : Context) : Option (ℕ × Context) :=
  let blockSize := fs.superblock.blockSize
  let start := fs.superblock.blockBitmapPointersStart
  markFirstFree fs start start DIOSFS_NUM_BLOCK_POINTER_BLOCKS id
    (fun block byte ↦ block * blockSize + byte)
    ⟨fs.superblock.blockBitmapSize * blockSize % 2 ^ 64, garbage⟩

/-- `diosfs_get_free_inode_and_mark_bitmap`. It marks the bit in the first block of the bitmap, and it
has a buffer of 16 pages. -/
def getFreeInodeAndMarkBitmap (garbage : Bytes) (fs : Context) : Option (Inode × Context) := do
  let (inodeNumber, fs) ← markFirstFree fs fs.superblock.inodeBitmapPointersStart
    fs.superblock.inodeBitmapSize DIOSFS_NUM_INODE_POINTER_BLOCKS (wrap fs.superblock.blockSize)
    (fun _ byte ↦ byte) ⟨PAGE_SIZE * 16, garbage⟩
  some ({ Inode.zero with inodeNumber := inodeNumber % 2 ^ 16 }, fs)

/-- `BITMAP_TYPE_BLOCK` and `BITMAP_TYPE_INODE`. -/
inductive BitmapType where
  | block
  | inode
deriving DecidableEq, Repr

def Superblock.bitmapStart (superblock : Superblock) : BitmapType → ℕ
  | .block => superblock.blockBitmapPointersStart
  | .inode => superblock.inodeBitmapPointersStart

def Superblock.bitmapSize (superblock : Superblock) : BitmapType → ℕ
  | .block => superblock.blockBitmapSize
  | .inode => superblock.inodeBitmapSize

/-- `diosfs_clear_bitmap`. The byte it clears a bit in is the one at the bit's place in the whole
bitmap. What the device returns is ignored. -/
def clearBitmap (fs : Context) (type : BitmapType) (number : ℕ) : Option Context := do
  let block := fs.superblock.bitmapStart type + number / (fs.superblock.blockSize * 8)
  let buffer : Buffer := ⟨PAGE_SIZE, fun _ ↦ 0⟩
  let (_, buffer, device) ← blockRead fs.device block 1 buffer
  if buffer.length ≤ number / 8 then none
  else
    let buffer := { buffer with bytes := erase buffer.bytes (number / 8) (number % 8) }
    let (_, device) ← blockWrite device block 1 buffer
    some ⟨fs.superblock, device⟩

theorem getLsbD_signExtend_of_lt (value : Byte) {bit : ℕ} (hbit : bit < 8) :
    (value.signExtend 32).getLsbD bit = value.getLsbD bit := by
  rw [BitVec.getLsbD_signExtend, decide_eq_true (by omega : bit < 32), Bool.true_and, if_pos hbit]

theorem getLsbD_signExtend_eight (value : Byte) :
    (value.signExtend 32).getLsbD 8 = value.getLsbD 7 := by
  rw [BitVec.getLsbD_signExtend, if_neg (by decide), BitVec.msb_eq_getLsbD_last]
  rfl

theorem signExtend_ne_0xFF (value : Byte) : value.signExtend 32 ≠ 0xFF := by
  intro hsame
  have hseven := getLsbD_signExtend_of_lt value (by decide : 7 < 8)
  have height := getLsbD_signExtend_eight value
  rw [hsame] at hseven height
  exact absurd (hseven.trans height.symm) (by decide)

theorem freeBit_eq (value : Byte) : freeBit value = firstFree value.getLsbD 8 0 := by
  have hrange : range 9 = range 8 ++ [8] := rfl
  have hlow : (range 8).find? (fun bit ↦ !(value.signExtend 32).getLsbD bit) =
      firstFree value.getLsbD 8 0 := by
    rw [firstFree_eq_head?, clearBits, ← head?_filter]
    congr 1
    exact filter_congr fun bit hbit ↦ by
      rw [getLsbD_signExtend_of_lt value (mem_range.mp hbit)]
  rw [freeBit, hrange, find?_append, hlow]
  cases hfree : firstFree value.getLsbD 8 0 with
  | some bit => rfl
  | none =>
    have hset : value.getLsbD 7 = true := by
      rw [firstFree_eq_head?, head?_eq_none_iff] at hfree
      by_contra hclear
      have hmem : 7 ∈ clearBits value.getLsbD 8 :=
        mem_clearBits.mpr ⟨by decide, Bool.eq_false_of_not_eq_true hclear⟩
      simp [hfree] at hmem
    simp [getLsbD_signExtend_eight, hset]

def placeOf (blockSize position : ℕ) : ℕ × ℕ × ℕ :=
  (position / 8 / blockSize, position / 8 % blockSize, position % 8)

theorem placeOf_mul_add {blockSize block byte bit : ℕ} (hbyte : byte < blockSize) (hbit : bit < 8) :
    placeOf blockSize (8 * (block * blockSize + byte) + bit) = (block, byte, bit) := by
  have hidx : (8 * (block * blockSize + byte) + bit) / 8 = blockSize * block + byte := by
    rw [Nat.mul_add_div (by decide), Nat.div_eq_of_lt hbit, mul_comm block]
    rfl
  rw [placeOf, hidx, Nat.mul_add_div (by omega), Nat.div_eq_of_lt hbyte, Nat.mul_add_mod,
    Nat.mod_eq_of_lt hbyte, Nat.mul_add_mod, Nat.mod_eq_of_lt hbit]
  rfl

theorem scan_eq {buf : Buffer} {blockSize lastBlock : ℕ} {next : ℕ × ℕ → ℕ × ℕ}
    (hnext : ∀ block byte, byte < blockSize → next (block, byte) = (block, byte)) :
    ∀ {rounds block byte : ℕ}, byte < blockSize →
      rounds + (block * blockSize + byte) = (lastBlock + 1) * blockSize →
      scan buf blockSize lastBlock next rounds (block, byte) =
        (firstFree (bitOf buf.bytes) (8 * min rounds (buf.length - (block * blockSize + byte)))
          (8 * (block * blockSize + byte))).map (placeOf blockSize)
  | 0, block, byte, _, _ => by simp [scan, firstFree]
  | rounds + 1, block, byte, hbyte, hrounds => by
      by_cases hlen : buf.length ≤ block * blockSize + byte
      · rw [scan, if_pos hlen, Nat.sub_eq_zero_of_le hlen, Nat.min_zero]
        rfl
      -- The first eight bits are those of this byte.
      have hlimit : 8 * min (rounds + 1) (buf.length - (block * blockSize + byte)) =
          8 + 8 * min rounds (buf.length - (block * blockSize + byte + 1)) := by omega
      have hhere : firstFree (bitOf buf.bytes) 8 (8 * (block * blockSize + byte)) =
          (freeBit (buf.bytes (block * blockSize + byte))).map
            (8 * (block * blockSize + byte) + ·) := by
        have hshift := firstFree_shift (bitOf buf.bytes) (8 * (block * blockSize + byte)) 8 0
        rw [add_zero] at hshift
        rw [hshift, freeBit_eq]
        congr 1
        exact firstFree_congr fun bit _ hbit ↦ bitOf_mul_add _ _ (by omega)
      rw [scan, if_neg hlen, if_pos (signExtend_ne_0xFF _), hlimit, firstFree_add, hhere]
      cases hfree : freeBit (buf.bytes (block * blockSize + byte)) with
      | some bit =>
        have hbit : bit < 8 := by
          rw [freeBit_eq] at hfree
          have hfound := (firstFree_eq_some hfree).2.2.1
          omega
        simp only [map_some, some_or, placeOf_mul_add hbyte hbit]
      | none =>
        simp only [map_none, none_or]
        by_cases hlast : byte + 1 = blockSize
        · have hidx : (block + 1) * blockSize + 0 = block * blockSize + byte + 1 := by
            rw [Nat.succ_mul]
            omega
          rw [show wrap blockSize (block, byte + 1) = (block + 1, 0) from if_pos hlast]
          split
          · have hdone : rounds = 0 := by
              have hle : (lastBlock + 1) * blockSize ≤ (block + 1) * blockSize :=
                Nat.mul_le_mul_right _ (by omega)
              omega
            rw [hdone, Nat.zero_min]
            rfl
          · rw [hnext _ _ (by omega), scan_eq hnext (by omega) (by omega), hidx]
            rfl
        · have hin : ¬lastBlock < block := by
            intro hpanic
            have hle : (lastBlock + 1) * blockSize ≤ block * blockSize :=
              Nat.mul_le_mul_right _ hpanic
            omega
          rw [show wrap blockSize (block, byte + 1) = (block, byte + 1) from if_neg hlast,
            if_neg hin, hnext _ _ (by omega), scan_eq hnext (by omega) (by omega)]
          rfl

def scanLimit (buffer : Buffer) (blockSize lastBlock : ℕ) : ℕ :=
  8 * min ((lastBlock + 1) * blockSize) buffer.length

theorem scanBuffer_eq {buf : Buffer} {blockSize lastBlock : ℕ} {next : ℕ × ℕ → ℕ × ℕ}
    (hsize : 0 < blockSize)
    (hnext : ∀ block byte, byte < blockSize → next (block, byte) = (block, byte)) :
    scanBuffer buf blockSize lastBlock next =
      (firstFree (bitOf buf.bytes) (scanLimit buf blockSize lastBlock) 0).map
        (placeOf blockSize) := by
  have hscan := @scan_eq buf blockSize lastBlock next hnext ((lastBlock + 1) * blockSize) 0 0
    hsize (by omega)
  rw [scanBuffer, hscan, scanLimit]
  simp

end DionysOS.Filesystem.DiosfsDisk
