import DionysOS.Filesystem.DiosfsBitmapEffects
import DionysOS.Filesystem.DiosfsRemoval

/-!
# Runs of block allocations

Calls of `diosfs_get_free_block_and_mark_bitmap` one after the other, with nothing freed in between.
The function transfers as many blocks as the number of the block that its bitmap starts at, into a
buffer of the size of the bitmap, and it looks at 129 blocks at most. A run takes different clear
bits, sets exactly these, and stays inside the bitmap if and only if the blocks it transfers are in the
bitmap, their size is within the limit of the device, and they have enough clear bits.
-/

namespace DionysOS.Filesystem.DiosfsDisk

open Foundation.ByteRecords List Superblock
open Foundation.Bitmap
open Drivers.Block
open Vfs (DIOSFS_BLOCKSIZE)

variable {fs after : Context} {garbage : Bytes} {garbages : List Bytes} {number num : ℕ}

/-- The numbers that the allocator can both find and set: those of the blocks it transfers, up to the
block at which it panics. -/
def Superblock.reachableBlocks (superblock : Superblock) : ℕ :=
  8 * min (superblock.blockBitmapPointersStart * superblock.blockSize)
    ((DIOSFS_NUM_BLOCK_POINTER_BLOCKS + 1) * superblock.blockSize)

/-- The blocks that are transferred are in the bitmap, and their size is within the limit of the
device. -/
structure Superblock.Transferable (superblock : Superblock) : Prop where
  start_le : superblock.blockBitmapPointersStart ≤ superblock.blockBitmapSize
  size_le : superblock.blockBitmapPointersStart * superblock.blockSize ≤ BUFFER_SIZE

/-- The numbers are different, their bits were clear, exactly these bits of the disk are now set, and
every transfer was one of blocks of the bitmap. -/
structure AllocatesBlocks (fs after : Context) (numbers : List ℕ) : Prop where
  taken : Taken (fs.bitmapBit .block) (after.bitmapBit .block) numbers
  inside : ∀ number ∈ numbers,
    number < 8 * (fs.superblock.blockBitmapSize * fs.superblock.blockSize)
  front : ∀ position < fs.superblock.firstBit .block, after.bit position = fs.bit position
  transfers : ∃ made, after.device.transfers = fs.device.transfers ++ made ∧
    ∀ transfer ∈ made, fs.superblock.blockBitmapPointersStart ≤ transfer.1 ∧
      transfer.1 + transfer.2 ≤
        fs.superblock.blockBitmapPointersStart + fs.superblock.blockBitmapSize

/-- What a run keeps: the superblock, the bits in front of the bitmap, and which blocks the transfers
are of. -/
structure Reached (fs after : Context) : Prop where
  superblock : after.superblock = fs.superblock
  placed : Placed after .block
  front : ∀ position < fs.superblock.firstBit .block, after.bit position = fs.bit position
  transfers : ∃ made, after.device.transfers = fs.device.transfers ++ made ∧
    ∀ transfer ∈ made, transfer =
      (fs.superblock.blockBitmapPointersStart, fs.superblock.blockBitmapPointersStart)

theorem Reached.refl (hplaced : Placed fs .block) : Reached fs fs :=
  ⟨rfl, hplaced, fun _ _ ↦ rfl, [], (append_nil _).symm,
    fun _ htransfer ↦ absurd htransfer not_mem_nil⟩

def Context.markedBlock (fs : Context) (number : ℕ) : Context :=
  fs.edited fs.superblock.blockBitmapPointersStart fs.superblock.blockBitmapPointersStart
    (number / 8) (· ||| 1#8 <<< (number % 8))

theorem Reached.markedBlock (hreached : Reached fs after) (num : ℕ) :
    Reached fs (after.markedBlock num) := by
  obtain ⟨made, hmade, hall⟩ := hreached.transfers
  have hstart : after.superblock.blockBitmapPointersStart = fs.superblock.blockBitmapPointersStart :=
    congrArg blockBitmapPointersStart hreached.superblock
  constructor
  · exact hreached.superblock
  · exact hreached.placed.edited _ _ _ _
  · intro pos hpos
    rw [← hreached.front pos hpos]
    rw [← hreached.superblock] at hpos
    exact bit_edited_of_lt hreached.placed.blockSize_eq .block _ _ _ hpos
      (Nat.mod_lt _ (by decide))
  · refine ⟨made ++ [(fs.superblock.blockBitmapPointersStart,
      fs.superblock.blockBitmapPointersStart)] ++ [(fs.superblock.blockBitmapPointersStart,
      fs.superblock.blockBitmapPointersStart)], ?_, ?_⟩
    · simp only [Context.markedBlock, Context.edited, hmade, hstart, append_assoc]
    · intro transfer htransfer
      simp only [mem_append, mem_singleton, or_assoc, or_self] at htransfer
      exact htransfer.elim (hall transfer) id

theorem bitmapBit_markedBlock (hplaced : Placed fs .block) (num pos : ℕ) :
    (fs.markedBlock num).bitmapBit .block pos =
      (fs.bitmapBit .block pos || (decide (num / 8 <
        fs.superblock.blockBitmapPointersStart * fs.superblock.blockSize) && pos == num)) :=
  bitmapBit_edited_mark hplaced.blockSize_eq .block _ num pos

def Context.seenBits (fs : Context) (garbage : Bytes) : ℕ → Bool :=
  bitOf (fs.device.loaded fs.superblock.blockBitmapPointersStart
    fs.superblock.blockBitmapPointersStart
    ⟨fs.superblock.blockBitmapSize * fs.superblock.blockSize % 2 ^ 64, garbage⟩).bytes

def Superblock.seenLimit (superblock : Superblock) : ℕ :=
  8 * min ((DIOSFS_NUM_BLOCK_POINTER_BLOCKS + 1) * superblock.blockSize)
    (superblock.blockBitmapSize * superblock.blockSize)

def blockScanner (superblock : Superblock) : Scanner Bytes Context :=
  ⟨fun garbage fs ↦ fs.seenBits garbage, superblock.seenLimit, id, Context.markedBlock⟩

theorem getFreeBlockAndMarkBitmap_eq (hplaced : Placed fs .block)
    (htransfer : fs.superblock.Transferable) (garbage : Bytes) :
    getFreeBlockAndMarkBitmap garbage fs = (blockScanner fs.superblock).allocate garbage fs := by
  have hdev : OnDevice fs.device.ramdisk fs.superblock.blockBitmapPointersStart
      fs.superblock.blockBitmapPointersStart :=
    hplaced.part (Nat.add_le_add_left htransfer.start_le _)
  have hmod : fs.superblock.blockBitmapSize * fs.superblock.blockSize % 2 ^ 64 =
      fs.superblock.blockBitmapSize * fs.superblock.blockSize :=
    hplaced.blockSize_eq ▸ hplaced.onDevice.size_mod
  have hbuf : fs.superblock.blockBitmapPointersStart * fs.superblock.blockSize ≤
      fs.superblock.blockBitmapSize * fs.superblock.blockSize % 2 ^ 64 :=
    (Nat.mul_le_mul_right _ htransfer.start_le).trans_eq hmod.symm
  have hidx : ∀ num, num / 8 / fs.superblock.blockSize * fs.superblock.blockSize +
      num / 8 % fs.superblock.blockSize = num / 8 := fun num ↦ Nat.div_add_mod' _ _
  have heq := @markFirstFree_eq fs _ hplaced.blockSize_eq _ DIOSFS_NUM_BLOCK_POINTER_BLOCKS id
    ⟨fs.superblock.blockBitmapSize * fs.superblock.blockSize % 2 ^ 64, garbage⟩ hdev
    htransfer.size_le hbuf (fun _ _ _ ↦ rfl) (fun block byte ↦
      block * fs.superblock.blockSize + byte)
  simp only [scanLimit, hidx] at heq
  simp only [Scanner.allocate, blockScanner, seenLimit]
  rw [← hmod]
  exact heq

theorem Superblock.Transferable.reachableBlocks_le {superblock : Superblock}
    (htransfer : superblock.Transferable) : superblock.reachableBlocks ≤ superblock.seenLimit := by
  have hsize := Nat.mul_le_mul_right superblock.blockSize htransfer.start_le
  rw [reachableBlocks, seenLimit]
  omega

theorem blockScanner_sound (htransfer : fs.superblock.Transferable) :
    (blockScanner fs.superblock).Sound (fun state ↦ state.bitmapBit .block) (Reached fs)
      fs.superblock.reachableBlocks where
  le := htransfer.reachableBlocks_le
  seen hreached hbit := by
    rw [reachableBlocks, ← hreached.superblock] at hbit
    exact bitOf_loaded hreached.placed.blockSize_eq .block _ (by omega)
  name _ := rfl
  keeps number hreached := hreached.markedBlock number
  set {state number} hreached hnum := by
    funext pos
    rw [reachableBlocks, ← hreached.superblock] at hnum
    have hbyte : number / 8 <
        state.superblock.blockBitmapPointersStart * state.superblock.blockSize := by omega
    refine (bitmapBit_markedBlock hreached.placed number pos).trans ?_
    rw [decide_eq_true hbyte, Bool.true_and, or_beq_eq_update]
  frame {state number pos} hreached hnum hposition := by
    simp only [blockScanner, seenLimit, reachableBlocks,
      ← hreached.superblock] at hnum hposition
    have hother : (decide (number / 8 < state.superblock.blockBitmapPointersStart *
        state.superblock.blockSize) && pos == number) = false := by
      simp only [Bool.and_eq_false_iff, decide_eq_false_iff_not, beq_eq_false_iff_ne]
      omega
    refine (bitmapBit_markedBlock hreached.placed number pos).trans ?_
    rw [hother, Bool.or_false]

theorem transfers_of_getFreeBlockAndMarkBitmap
    (hfree : getFreeBlockAndMarkBitmap garbage fs = some (num, after)) :
    after.superblock = fs.superblock ∧ after.device.transfers = fs.device.transfers ++
      [(fs.superblock.blockBitmapPointersStart, fs.superblock.blockBitmapPointersStart)] ++
      [(fs.superblock.blockBitmapPointersStart, fs.superblock.blockBitmapPointersStart)] := by
  obtain ⟨⟨status, buf, dev⟩, hread, hfree⟩ := Option.bind_eq_some_iff.mp hfree
  by_cases hstatus : status = .success
  · subst hstatus
    obtain ⟨⟨block, byte, bit⟩, -, hfree⟩ := Option.bind_eq_some_iff.mp hfree
    obtain ⟨⟨status, dev'⟩, hwrite, hfree⟩ := Option.bind_eq_some_iff.mp hfree
    by_cases hstatus : status = .success
    · subst hstatus
      cases hfree
      exact ⟨rfl, by rw [transfers_of_blockWrite hwrite, transfers_of_blockRead hread]⟩
    · exact absurd hfree (by simp [hstatus])
  · exact absurd hfree (by simp [hstatus])

theorem transferable_of_getFreeBlockAndMarkBitmap (hplaced : Placed fs .block)
    (hstart : fs.superblock.blockBitmapPointersStart ≤ fs.superblock.blockBitmapSize)
    (hfree : getFreeBlockAndMarkBitmap garbage fs = some (num, after)) :
    fs.superblock.Transferable := by
  have hdev : OnDevice fs.device.ramdisk fs.superblock.blockBitmapPointersStart
      fs.superblock.blockBitmapPointersStart := hplaced.part (Nat.add_le_add_left hstart _)
  obtain ⟨⟨status, buf, dev⟩, hread, hfree⟩ := Option.bind_eq_some_iff.mp hfree
  by_cases hstatus : status = .success
  · subst hstatus
    have hsize := (le_of_blockRead hdev hread).1
    rw [hplaced.blockSize_eq] at hsize
    exact ⟨hstart, hsize⟩
  · exact absurd hfree (by simp [hstatus])

theorem Reached.getFreeBlockAndMarkBitmap_eq {state : Context} (htransfer : fs.superblock.Transferable)
    (hreached : Reached fs state) : getFreeBlockAndMarkBitmap garbage state =
      (blockScanner fs.superblock).allocate garbage state := by
  rw [DiosfsDisk.getFreeBlockAndMarkBitmap_eq hreached.placed (hreached.superblock ▸ htransfer),
    hreached.superblock]

theorem transfers_of_takeEach {numbers : List ℕ}
    (hrun : takeEach getFreeBlockAndMarkBitmap garbages fs = some (numbers, after)) :
    ∃ made, after.device.transfers = fs.device.transfers ++ made := by
  have hframe := @takeEach_frame _ _ (fun _ _ ↦ false)
    (fun state : Context ↦ ∃ made, state.device.transfers = fs.device.transfers ++ made) 0
    getFreeBlockAndMarkBitmap ?_ _ _ _ _ ⟨[], (append_nil _).symm⟩ hrun
  · exact hframe.2.1
  · rintro garbage state num after ⟨made, hmade⟩ hfree
    rw [(transfers_of_getFreeBlockAndMarkBitmap hfree).2, hmade, append_assoc, append_assoc]
    exact ⟨⟨_, rfl⟩, fun _ _ ↦ rfl⟩

theorem AllocatesBlocks.start_le {numbers : List ℕ} (hallocates : AllocatesBlocks fs after numbers)
    (hrun : takeEach getFreeBlockAndMarkBitmap (garbage :: garbages) fs = some (numbers, after)) :
    fs.superblock.blockBitmapPointersStart ≤ fs.superblock.blockBitmapSize := by
  obtain ⟨⟨num, mid⟩, hfree, hrun⟩ := Option.bind_eq_some_iff.mp hrun
  obtain ⟨⟨others, last⟩, hrest, hrun⟩ := Option.bind_eq_some_iff.mp hrun
  cases hrun
  obtain ⟨made, hmade, hin⟩ := hallocates.transfers
  obtain ⟨further, hfurther⟩ := transfers_of_takeEach hrest
  rw [hfurther, (transfers_of_getFreeBlockAndMarkBitmap hfree).2, append_assoc,
    append_assoc] at hmade
  have hfirst := hin (fs.superblock.blockBitmapPointersStart,
    fs.superblock.blockBitmapPointersStart) (by
      rw [← append_cancel_left hmade]
      exact mem_cons_self)
  exact Nat.le_of_add_le_add_left hfirst.2

/-- A run of allocations is exact if and only if it is empty, or the blocks that are transferred are in
the bitmap and within the limit of the device, and there are enough clear bits in those of them that
are looked at. -/
theorem allocateBlocks_exact_iff (hplaced : Placed fs .block) (garbages : List Bytes) :
    (∃ numbers after, takeEach getFreeBlockAndMarkBitmap garbages fs = some (numbers, after) ∧
        AllocatesBlocks fs after numbers) ↔
      garbages = [] ∨ fs.superblock.Transferable ∧ garbages.length ≤
        (clearBits (fs.bitmapBit .block) fs.superblock.reachableBlocks).length := by
  constructor
  · rintro ⟨numbers, after, hrun, hallocates⟩
    cases garbages with
    | nil => exact .inl rfl
    | cons garbage garbages =>
      have hstart := hallocates.start_le hrun
      obtain ⟨⟨number, mid⟩, hfree, -⟩ := Option.bind_eq_some_iff.mp hrun
      have htransfer := transferable_of_getFreeBlockAndMarkBitmap hplaced hstart hfree
      exact .inr ⟨htransfer, ((blockScanner_sound htransfer).taken_takeEach_iff
        (fun hreached ↦ hreached.getFreeBlockAndMarkBitmap_eq htransfer) (Reached.refl hplaced)).mp
        ⟨_, _, hrun, hallocates.taken⟩⟩
  · rintro (rfl | ⟨htransfer, hlen⟩)
    · refine ⟨[], fs, rfl, Taken.nil _, ?_, fun _ _ ↦ rfl, [], (append_nil _).symm, ?_⟩
      · exact fun _ hnum ↦ absurd hnum not_mem_nil
      · exact fun _ htransfer ↦ absurd htransfer not_mem_nil
    · have hsound := blockScanner_sound htransfer
      obtain ⟨numbers, after, hrun, htaken⟩ := (hsound.taken_takeEach_iff
        (fun hreached ↦ hreached.getFreeBlockAndMarkBitmap_eq htransfer)
        (Reached.refl hplaced)).mpr hlen
      obtain ⟨-, hreached, hsame⟩ := hsound.takeEach_frame
        (fun hreached ↦ hreached.getFreeBlockAndMarkBitmap_eq htransfer) (Reached.refl hplaced) hrun
      refine ⟨numbers, after, hrun, htaken, fun number hnum ↦ ?_, hreached.front, ?_⟩
      · have hbit := (mem_clearBits.mp (htaken.subset hsame hnum)).1
        have hlimit := htransfer.reachableBlocks_le
        rw [seenLimit] at hlimit
        omega
      · obtain ⟨made, hmade, hall⟩ := hreached.transfers
        refine ⟨made, hmade, fun transfer hmem ↦ ?_⟩
        rw [hall transfer hmem]
        exact ⟨le_rfl, Nat.add_le_add_left htransfer.start_le _⟩

/-- A disk of two pages with all bits clear, and a bitmap of `size` blocks that starts at a block. -/
def blankBitmap (start size : ℕ) : Context where
  superblock := ⟨DIOSFS_BLOCKSIZE, 1, size, 1, start⟩
  device := ⟨⟨2, DIOSFS_BLOCKSIZE, fun _ ↦ 0⟩, []⟩

theorem placed_blankBitmap {start size : ℕ} (hfits : start + size ≤ 8) :
    Placed (blankBitmap start size) .block := by
  refine ⟨rfl, (by decide : 0 < DIOSFS_BLOCKSIZE), (by decide : 2 * PAGE_SIZE < 2 ^ 64), ?_⟩
  simp only [blankBitmap, bitmapStart, bitmapSize, Ramdisk.length, PAGE_SIZE,
    DIOSFS_BLOCKSIZE]
  omega

theorem allocateBlocks_exact_two :
    Placed (blankBitmap 2 4) .block ∧
      ∃ numbers after,
        takeEach getFreeBlockAndMarkBitmap [fun _ ↦ 0xAA, fun _ ↦ 0x55] (blankBitmap 2 4) =
          some (numbers, after) ∧ AllocatesBlocks (blankBitmap 2 4) after numbers := by
  have hplaced : Placed (blankBitmap 2 4) .block := placed_blankBitmap (by decide)
  refine ⟨hplaced, (allocateBlocks_exact_iff hplaced _).mpr (.inr ⟨⟨by decide, by decide⟩, ?_⟩)⟩
  exact le_length_clearBits (by decide) fun bit _ ↦ by
    simp [Context.bitmapBit, Context.bit, blankBitmap, bitOf]

/-- A bitmap of two blocks that starts at block 3: three blocks are read into a buffer of two. -/
theorem allocateBlocks_not_exact :
    Placed (blankBitmap 3 2) .block ∧
      ¬∃ numbers after,
        takeEach getFreeBlockAndMarkBitmap [fun _ ↦ 0] (blankBitmap 3 2) = some (numbers, after) ∧
          AllocatesBlocks (blankBitmap 3 2) after numbers := by
  refine ⟨placed_blankBitmap (by decide), ?_⟩
  rintro ⟨numbers, after, hrun, hallocates⟩
  exact absurd (hallocates.start_le hrun) (by decide)

/-- A file system whose block bitmap is a function of the bit shows the bytes of the disk. -/
structure Shows (fs : Context) (view : Diosfs.Context) : Prop where
  size_eq : view.superblock.blockBitmapSize = fs.superblock.blockBitmapSize
  start_eq : view.superblock.blockBitmapPointersStart = fs.superblock.blockBitmapPointersStart
  bits_eq : view.blockBitmap = fs.bitmapBit .block

/-- As long as a reachable bit is clear, the allocation over the bytes and the one over the bits return
the same number, and the bits still show the bytes. -/
theorem Shows.getFreeBlockAndMarkBitmap {view : Diosfs.Context} (hshows : Shows fs view)
    (hplaced : Placed fs .block) (hsize : fs.superblock.blockSize = DIOSFS_BLOCKSIZE)
    (htransfer : fs.superblock.Transferable) (garbage : Bytes)
    (hclear : clearBits (fs.bitmapBit .block) fs.superblock.reachableBlocks ≠ []) :
    ∃ number after view', DiosfsDisk.getFreeBlockAndMarkBitmap garbage fs = some (number, after) ∧
      Diosfs.getFreeBlockAndMarkBitmap view = some (number, view') ∧ Shows after view' := by
  obtain ⟨number, rest, hnum⟩ := exists_cons_of_ne_nil hclear
  obtain ⟨hfree, hbits⟩ :=
    (blockScanner_sound htransfer).allocate_of_clear (Reached.refl hplaced) hnum garbage
  rw [← getFreeBlockAndMarkBitmap_eq hplaced htransfer] at hfree
  refine ⟨number, _, view.setBlockBit number true, hfree, ?_, hshows.size_eq, hshows.start_eq, ?_⟩
  · have hlimit : fs.superblock.reachableBlocks ≤
        fs.superblock.blockBitmapPointersStart * Diosfs.BITS_PER_BLOCK := by
      rw [reachableBlocks, hsize]
      simp only [Diosfs.BITS_PER_BLOCK, DIOSFS_BLOCKSIZE]
      omega
    have hfound : firstFree view.blockBitmap
        (view.superblock.blockBitmapPointersStart * Diosfs.BITS_PER_BLOCK) 0 = some number := by
      rw [hshows.start_eq]
      exact firstFree_of_clearBits hnum hlimit fun bit _ ↦ by rw [hshows.bits_eq]
    have hstart : ¬view.superblock.blockBitmapSize < view.superblock.blockBitmapPointersStart := by
      rw [hshows.size_eq, hshows.start_eq]
      exact not_lt.mpr htransfer.start_le
    simp [Diosfs.getFreeBlockAndMarkBitmap, hstart, hfound]
  · rw [hbits, ← hshows.bits_eq]
    rfl

theorem bitmapBit_clearBitmap {type : BitmapType} (hplaced : Placed fs type)
    (hsize : fs.superblock.blockSize = DIOSFS_BLOCKSIZE)
    (hnum : number < 8 * fs.superblock.blockSize * fs.superblock.bitmapSize type) :
    (clearBitmap fs type number).map (fun after ↦ after.bitmapBit type) =
      Diosfs.clearBit (fs.bitmapBit type) number := by
  have hpage : fs.superblock.blockSize ≤ PAGE_SIZE := by
    rw [hsize]
    decide
  have hbits : Diosfs.BITS_PER_BLOCK = 8 * fs.superblock.blockSize := by
    rw [hsize]
    rfl
  rw [Diosfs.clearBit, hbits, show Diosfs.PAGE_SIZE = PAGE_SIZE from rfl]
  by_cases hfirst : number < 8 * fs.superblock.blockSize
  · obtain ⟨after, hclear, hexact⟩ := clearsExactly_of_lt hplaced hpage hnum hfirst
    have hsuper : after.superblock = fs.superblock := by
      rw [clearBitmap_eq hplaced hpage hnum, if_neg (by omega)] at hclear
      cases hclear
      rfl
    rw [if_pos hfirst, hclear, Option.map_some]
    congr 1
    funext pos
    rw [Context.bitmapBit, hsuper, hexact, markedNumber_of_lt hfirst]
    by_cases hpos : pos = number
    · simp [hpos]
    · simp [hpos, Context.bitmapBit]
  · rw [if_neg hfirst]
    by_cases hin : number / 8 < PAGE_SIZE
    · have hclear := (clearBitmap_eq hplaced hpage hnum).trans (if_neg (not_le.mpr hin))
      rw [hclear, if_pos hin, Option.map_some]
      congr 1
      funext pos
      exact bit_clearBitmap_of_le hplaced hpage hnum (not_lt.mp hfirst) hclear _
    · rw [clearBitmap_eq hplaced hpage hnum, if_pos (not_lt.mp hin), if_neg hin]
      rfl

end DionysOS.Filesystem.DiosfsDisk
