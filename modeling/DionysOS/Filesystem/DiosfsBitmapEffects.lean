import DionysOS.Filesystem.DiosfsBitmap

/-!
# What the bitmap functions do to the disk

For bitmaps that lie on the device, each function is an equation: a scan of the bits that the buffer
holds, followed by a change of one bit on the disk. The allocator of blocks changes the bit it found.
The allocator of inodes changes the bit at the same place in the first block of the bitmap.
`diosfs_clear_bitmap` changes a bit only if the number is one of the first block.
-/

namespace DionysOS.Filesystem.DiosfsDisk

open Foundation.ByteRecords Option Function Superblock
open Foundation.Bitmap
open Drivers.Block
open Vfs (DIOSFS_BLOCKSIZE)

/-- A bitmap lies on the device, and the device has the block size of the file system. -/
structure Placed (fs : Context) (type : BitmapType) : Prop where
  blockSize_eq : fs.device.ramdisk.blockSize = fs.superblock.blockSize
  onDevice : OnDevice fs.device.ramdisk (fs.superblock.bitmapStart type) (fs.superblock.bitmapSize type)

def Superblock.firstBit (superblock : Superblock) (type : BitmapType) : ℕ :=
  8 * (superblock.bitmapStart type * superblock.blockSize)

def Context.bitmapBit (fs : Context) (type : BitmapType) (number : ℕ) : Bool :=
  fs.bit (fs.superblock.firstBit type + number)

/-- The disk after some blocks were read, one byte of them was changed, and they were written back. -/
def Context.edited (fs : Context) (block count index : ℕ) (edit : Byte → Byte) : Context :=
  ⟨fs.superblock,
    ⟨{ fs.device.ramdisk with
        memory :=
          if index < count * fs.device.ramdisk.blockSize then
            update fs.device.ramdisk.memory (block * fs.device.ramdisk.blockSize + index)
              (edit (fs.device.ramdisk.memory (block * fs.device.ramdisk.blockSize + index)))
          else fs.device.ramdisk.memory },
      fs.device.transfers ++ [(block, count)] ++ [(block, count)]⟩⟩

variable {fs : Context} {type : BitmapType} {block count idx bit number : ℕ} {edit : Byte → Byte}

theorem Placed.edited (hplaced : Placed fs type) (block count idx : ℕ) (edit : Byte → Byte) :
    Placed (fs.edited block count idx edit) type :=
  ⟨hplaced.blockSize_eq, ⟨hplaced.onDevice.blockSize_pos, hplaced.onDevice.length_lt,
    hplaced.onDevice.fits⟩⟩

theorem Placed.blockSize_pos (hplaced : Placed fs type) : 0 < fs.superblock.blockSize :=
  hplaced.blockSize_eq ▸ hplaced.onDevice.blockSize_pos

theorem Placed.part (hplaced : Placed fs type)
    (hpart : block + count ≤ fs.superblock.bitmapStart type + fs.superblock.bitmapSize type) :
    OnDevice fs.device.ramdisk block count :=
  ⟨hplaced.onDevice.blockSize_pos, hplaced.onDevice.length_lt,
    (Nat.mul_le_mul_right _ hpart).trans hplaced.onDevice.fits⟩

theorem bit_edited_mark (fs : Context) (block count idx : ℕ) (hbit : bit < 8) (pos : ℕ) :
    (fs.edited block count idx (· ||| 1#8 <<< bit)).bit pos =
      (fs.bit pos || (decide (idx < count * fs.device.ramdisk.blockSize) &&
        pos == 8 * (block * fs.device.ramdisk.blockSize + idx) + bit)) := by
  by_cases hidx : idx < count * fs.device.ramdisk.blockSize
  · simp only [Context.bit, Context.edited, if_pos hidx, decide_eq_true hidx, Bool.true_and]
    exact bitOf_mark fs.device.ramdisk.memory _ hbit pos
  · simp [Context.bit, Context.edited, hidx]

theorem bit_edited_erase (fs : Context) (block count idx : ℕ) (hbit : bit < 8) (pos : ℕ) :
    (fs.edited block count idx (· &&& ~~~(1#8 <<< bit))).bit pos =
      (fs.bit pos && !(decide (idx < count * fs.device.ramdisk.blockSize) &&
        pos == 8 * (block * fs.device.ramdisk.blockSize + idx) + bit)) := by
  by_cases hidx : idx < count * fs.device.ramdisk.blockSize
  · simp only [Context.bit, Context.edited, if_pos hidx, decide_eq_true hidx, Bool.true_and]
    exact bitOf_erase fs.device.ramdisk.memory _ hbit pos
  · simp [Context.bit, Context.edited, hidx]

theorem blockWrite_loaded (hdev : OnDevice fs.device.ramdisk block count)
    (hsize : count * fs.device.ramdisk.blockSize ≤ BUFFER_SIZE) {buf : Buffer}
    (hbuf : count * fs.device.ramdisk.blockSize ≤ buf.length) (idx : ℕ) (edit : Byte → Byte) :
    blockWrite ⟨fs.device.ramdisk, fs.device.transfers ++ [(block, count)]⟩ block count
        ⟨buf.length, update (fs.device.loaded block count buf).bytes idx
          (edit ((fs.device.loaded block count buf).bytes idx))⟩ =
      some (.success, (fs.edited block count idx edit).device) := by
  have hstored := stored_update_loaded fs.device (fs.device.transfers ++ [(block, count)]) block count
    buf idx buf.length edit
  have hwrite := @blockWrite_of_le ⟨fs.device.ramdisk, fs.device.transfers ++ [(block, count)]⟩
    ⟨buf.length, update (fs.device.loaded block count buf).bytes idx
      (edit ((fs.device.loaded block count buf).bytes idx))⟩ block count hdev hsize hbuf
  exact hwrite.trans (congrArg (fun dev ↦ some (Status.success, dev)) hstored)

theorem markFirstFree_eq (hblockSize : fs.device.ramdisk.blockSize = fs.superblock.blockSize)
    {start lastBlock : ℕ} {next : ℕ × ℕ → ℕ × ℕ} {buf : Buffer}
    (hdev : OnDevice fs.device.ramdisk start count)
    (hsize : count * fs.superblock.blockSize ≤ BUFFER_SIZE)
    (hbuf : count * fs.superblock.blockSize ≤ buf.length)
    (hnext : ∀ block byte, byte < fs.superblock.blockSize → next (block, byte) = (block, byte))
    (markedByte : ℕ → ℕ → ℕ) :
    markFirstFree fs start count lastBlock next markedByte buf =
      (firstFree (bitOf (fs.device.loaded start count buf).bytes)
        (scanLimit buf fs.superblock.blockSize lastBlock) 0).map fun number ↦
          (number, fs.edited start count (markedByte (number / 8 / fs.superblock.blockSize)
            (number / 8 % fs.superblock.blockSize)) (· ||| 1#8 <<< (number % 8))) := by
  have hread := blockRead_of_le hdev (hblockSize.symm ▸ hsize) (hblockSize.symm ▸ hbuf)
  have hpos : 0 < fs.superblock.blockSize := hblockSize ▸ hdev.blockSize_pos
  have hscan := @scanBuffer_eq (fs.device.loaded start count buf) _ lastBlock next hpos hnext
  rw [markFirstFree, hread]
  simp only [bind_eq_bind, bind_some, ne_eq, not_true_eq_false, if_false]
  rw [hscan]
  change Option.bind (Option.map _ (firstFree _ (scanLimit buf _ _) 0)) _ = _
  cases firstFree (bitOf (fs.device.loaded start count buf).bytes)
      (scanLimit buf fs.superblock.blockSize lastBlock) 0 with
  | none => rfl
  | some number =>
    have hnum : number / 8 / fs.superblock.blockSize * fs.superblock.blockSize * 8 +
        number / 8 % fs.superblock.blockSize * 8 + number % 8 = number := by
      rw [← add_mul, Nat.div_add_mod' _ fs.superblock.blockSize, Nat.div_add_mod']
    have hwrite := blockWrite_loaded hdev (hblockSize.symm ▸ hsize) (hblockSize.symm ▸ hbuf)
      (markedByte (number / 8 / fs.superblock.blockSize) (number / 8 % fs.superblock.blockSize))
      (· ||| 1#8 <<< (number % 8))
    simp only [map_some, bind_some, placeOf, hnum]
    change bind (blockWrite _ _ _ ⟨buf.length, update _ _ _⟩) _ = _
    rw [hwrite]
    rfl

/-- The bit that the allocator of a bitmap sets when it returns a number. -/
def Superblock.markedNumber (superblock : Superblock) : BitmapType → ℕ → ℕ
  | .block, number => number
  | .inode, number => number % (8 * superblock.blockSize)

theorem markedNumber_of_lt {superblock : Superblock} (hnum : number < 8 * superblock.blockSize) :
    superblock.markedNumber type number = number := by
  cases type
  · rfl
  · exact Nat.mod_eq_of_lt hnum

theorem Superblock.firstBit_add (superblock : Superblock) (type : BitmapType) (number : ℕ) :
    8 * (superblock.bitmapStart type * superblock.blockSize + number / 8) + number % 8 =
      superblock.firstBit type + number := by
  rw [firstBit]
  omega

theorem bitmapBit_edited_mark (hsize : fs.device.ramdisk.blockSize = fs.superblock.blockSize)
    (type : BitmapType) (count number pos : ℕ) :
    (fs.edited (fs.superblock.bitmapStart type) count (number / 8)
        (· ||| 1#8 <<< (number % 8))).bitmapBit type pos =
      (fs.bitmapBit type pos ||
        (decide (number / 8 < count * fs.superblock.blockSize) && pos == number)) := by
  have hsame : (fs.superblock.firstBit type + pos == fs.superblock.firstBit type + number) =
      (pos == number) := Bool.eq_iff_iff.mpr (by simp only [beq_iff_eq]; omega)
  have hbit := bit_edited_mark fs (fs.superblock.bitmapStart type) count (number / 8)
    (Nat.mod_lt number (by decide : 8 > 0)) (fs.superblock.firstBit type + pos)
  rwa [hsize, firstBit_add, hsame] at hbit

theorem bitOf_loaded (hsize : fs.device.ramdisk.blockSize = fs.superblock.blockSize)
    (type : BitmapType) (buf : Buffer) (hnum : number < 8 * (count * fs.superblock.blockSize)) :
    bitOf (fs.device.loaded (fs.superblock.bitmapStart type) count buf).bytes number =
      fs.bitmapBit type number := by
  have hbyte : (fs.device.loaded (fs.superblock.bitmapStart type) count buf).bytes (number / 8) =
      fs.device.ramdisk.memory
        (fs.superblock.bitmapStart type * fs.superblock.blockSize + number / 8) := by
    simp only [Device.loaded, hsize, copy]
    rw [if_pos ⟨Nat.zero_le _, by omega⟩, Nat.sub_zero]
  have hidx : (fs.superblock.firstBit type + number) / 8 =
      fs.superblock.bitmapStart type * fs.superblock.blockSize + number / 8 := by
    rw [firstBit]
    omega
  have hbit : (fs.superblock.firstBit type + number) % 8 = number % 8 := by
    rw [firstBit, Nat.mul_add_mod]
  rw [bitOf, hbyte, Context.bitmapBit, Context.bit, bitOf, hidx, hbit]

theorem bit_edited_of_lt (hsize : fs.device.ramdisk.blockSize = fs.superblock.blockSize)
    (type : BitmapType) (count idx bit : ℕ) {position : ℕ}
    (hposition : position < fs.superblock.firstBit type) (hbit : bit < 8) :
    (fs.edited (fs.superblock.bitmapStart type) count idx (· ||| 1#8 <<< bit)).bit position =
      fs.bit position := by
  have hother : (position == 8 * (fs.superblock.bitmapStart type * fs.superblock.blockSize + idx) +
      bit) = false := by
    rw [firstBit] at hposition
    exact beq_eq_false_iff_ne.mpr (by omega)
  rw [bit_edited_mark fs _ count idx hbit, hsize, hother, Bool.and_false, Bool.or_false]

section

variable (hplaced : Placed fs type) (hpage : fs.superblock.blockSize ≤ PAGE_SIZE)
  (hnum : number < 8 * fs.superblock.blockSize * fs.superblock.bitmapSize type)
include hplaced hpage hnum

theorem clearBitmap_eq :
    clearBitmap fs type number =
      if PAGE_SIZE ≤ number / 8 then none
      else some (fs.edited
        (fs.superblock.bitmapStart type + number / (fs.superblock.blockSize * 8)) 1 (number / 8)
        (· &&& ~~~(1#8 <<< (number % 8)))) := by
  have hblock : number / (fs.superblock.blockSize * 8) < fs.superblock.bitmapSize type := by
    rw [mul_comm fs.superblock.blockSize]
    exact Nat.div_lt_of_lt_mul hnum
  have hdev : OnDevice fs.device.ramdisk
      (fs.superblock.bitmapStart type + number / (fs.superblock.blockSize * 8)) 1 :=
    hplaced.part (by omega)
  have hlimit : PAGE_SIZE ≤ BUFFER_SIZE := by decide
  have hsize : 1 * fs.device.ramdisk.blockSize ≤ PAGE_SIZE := by
    rw [hplaced.blockSize_eq, one_mul]
    exact hpage
  have hread := @blockRead_of_le fs.device ⟨PAGE_SIZE, fun _ ↦ 0⟩ _ _ hdev (hsize.trans hlimit)
    hsize
  have hwrite := @blockWrite_loaded fs _ _ hdev (hsize.trans hlimit) ⟨PAGE_SIZE, fun _ ↦ 0⟩ hsize
    (number / 8) (· &&& ~~~(1#8 <<< (number % 8)))
  simp only [clearBitmap, hread, bind_eq_bind, bind_some]
  by_cases hin : PAGE_SIZE ≤ number / 8
  · rw [if_pos hin]
    exact if_pos hin
  · rw [if_neg hin]
    refine (if_neg hin).trans ?_
    change bind (blockWrite _ _ _ ⟨PAGE_SIZE, update _ _ _⟩) _ = _
    rw [hwrite]
    rfl

/-- The bit that the allocator sets for a number is cleared, and no other bit of the disk changes. -/
def ClearsExactly (fs after : Context) (type : BitmapType) (number : ℕ) : Prop :=
  ∀ position, after.bit position = (fs.bit position &&
    position != fs.superblock.firstBit type + fs.superblock.markedNumber type number)

theorem bit_clearBitmap_of_le {after : Context} (hsecond : 8 * fs.superblock.blockSize ≤ number)
    (hclear : clearBitmap fs type number = some after) (position : ℕ) :
    after.bit position = fs.bit position := by
  rw [clearBitmap_eq hplaced hpage hnum] at hclear
  split at hclear
  · cases hclear
  · cases hclear
    have hidx : ¬number / 8 < 1 * fs.device.ramdisk.blockSize := by
      rw [hplaced.blockSize_eq]
      omega
    rw [bit_edited_erase fs _ 1 _ (Nat.mod_lt _ (by decide)), decide_eq_false hidx,
      Bool.false_and, Bool.not_false, Bool.and_true]

theorem clearsExactly_of_lt (hfirst : number < 8 * fs.superblock.blockSize) :
    ∃ after, clearBitmap fs type number = some after ∧ ClearsExactly fs after type number := by
  have hidx : number / 8 < 1 * fs.device.ramdisk.blockSize := by
    rw [hplaced.blockSize_eq]
    omega
  have hblock : number / (fs.superblock.blockSize * 8) = 0 :=
    Nat.div_eq_of_lt (by omega)
  refine ⟨_, (clearBitmap_eq hplaced hpage hnum).trans (if_neg (by omega)), fun pos ↦ ?_⟩
  rw [bit_edited_erase fs _ 1 _ (Nat.mod_lt _ (by decide)), decide_eq_true hidx, Bool.true_and,
    hblock, add_zero, hplaced.blockSize_eq, firstBit_add,
    markedNumber_of_lt hfirst, bne]

end

/-- Clearing is exact for the numbers of the first block. For the numbers of the next three blocks it
does nothing, which is exact where the bit is clear already. For larger numbers it writes outside of
its buffer. -/
theorem clearBitmap_exact_iff (hplaced : Placed fs type)
    (hblockSize : fs.superblock.blockSize = DIOSFS_BLOCKSIZE)
    (hnumber : number < 8 * DIOSFS_BLOCKSIZE * fs.superblock.bitmapSize type) :
    (∃ after, clearBitmap fs type number = some after ∧ ClearsExactly fs after type number) ↔
      number < 8 * DIOSFS_BLOCKSIZE ∨
        number < 8 * PAGE_SIZE ∧
          fs.bitmapBit type (fs.superblock.markedNumber type number) = false := by
  have hpage : fs.superblock.blockSize ≤ PAGE_SIZE := by
    rw [hblockSize]
    decide
  rw [← hblockSize] at hnumber ⊢
  by_cases hfirst : number < 8 * fs.superblock.blockSize
  · exact iff_of_true (clearsExactly_of_lt hplaced hpage hnumber hfirst) (.inl hfirst)
  have heq := clearBitmap_eq hplaced hpage hnumber
  constructor
  · rintro ⟨after, hclear, hexact⟩
    have hinside : ¬PAGE_SIZE ≤ number / 8 := by
      intro hinside
      rw [heq, if_pos hinside] at hclear
      cases hclear
    have hsame := bit_clearBitmap_of_le hplaced hpage hnumber (not_lt.mp hfirst) hclear
      (fs.superblock.firstBit type + fs.superblock.markedNumber type number)
    rw [hexact, bne_self_eq_false, Bool.and_false] at hsame
    exact .inr ⟨by omega, hsame.symm⟩
  · rintro (hlt | ⟨hinside, hbit⟩)
    · exact absurd hlt hfirst
    · have hclear := heq.trans (if_neg (by omega))
      refine ⟨_, hclear, fun position ↦ ?_⟩
      rw [bit_clearBitmap_of_le hplaced hpage hnumber (not_lt.mp hfirst) hclear]
      by_cases hposition :
          position = fs.superblock.firstBit type + fs.superblock.markedNumber type number
      · rw [hposition, bne_self_eq_false, Bool.and_false]
        exact hbit
      · rw [bne_iff_ne.mpr hposition, Bool.and_true]

/-- A disk of two pages with all bits set; each bitmap has two blocks. -/
def fullBitmaps : Context where
  superblock := ⟨DIOSFS_BLOCKSIZE, 2, 2, 1, 3⟩
  device := ⟨⟨2, DIOSFS_BLOCKSIZE, fun _ ↦ 0xFF⟩, []⟩

theorem placed_fullBitmaps (type : BitmapType) : Placed fullBitmaps type := by
  refine ⟨rfl, ?_, ?_, ?_⟩
  · decide
  · decide
  · cases type <;> decide

theorem clearBitmap_exact_fullBitmaps :
    5 < 8 * DIOSFS_BLOCKSIZE * fullBitmaps.superblock.bitmapSize .inode ∧
      ∃ after, clearBitmap fullBitmaps .inode 5 = some after ∧
        ClearsExactly fullBitmaps after .inode 5 :=
  ⟨by decide, (clearBitmap_exact_iff (placed_fullBitmaps .inode) rfl (by decide)).mpr
    (.inl (by decide))⟩

/-- The first number of the second block of a bitmap keeps its bit. -/
theorem clearBitmap_not_exact :
    8192 < 8 * DIOSFS_BLOCKSIZE * fullBitmaps.superblock.bitmapSize .block ∧
      ¬∃ after, clearBitmap fullBitmaps .block 8192 = some after ∧
        ClearsExactly fullBitmaps after .block 8192 := by
  refine ⟨by decide, ?_⟩
  rintro ⟨after, hclear, hexact⟩
  have hsame := bit_clearBitmap_of_le (placed_fullBitmaps .block) (by decide) (by decide) (by decide)
    hclear (fullBitmaps.superblock.firstBit .block + 8192)
  have hcleared := hexact (fullBitmaps.superblock.firstBit .block + 8192)
  rw [hsame] at hcleared
  exact absurd hcleared (by decide)

end DionysOS.Filesystem.DiosfsDisk
