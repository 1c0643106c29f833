import DionysOS.Filesystem.DiosfsBitmapEffects

/-!
# Runs of inode allocations

Calls of `diosfs_get_free_inode_and_mark_bitmap` one after the other, with nothing freed in between.
The bit that was found is set in the first block of the bitmap. A run is therefore exact as long as
it finds its bits there. Once the first block is full, a call changes nothing on the disk, and the
next one finds the same bit again.
-/

namespace DionysOS.Filesystem.DiosfsDisk

open Foundation.ByteRecords Option Superblock
open Foundation.Bitmap
open Drivers.Block
open Diosfs (Inode)
open Vfs (DIOSFS_BLOCKSIZE)

variable {fs after : Context} {garbage : Bytes} {garbages : List Bytes} {number num : ℕ}

/-- The numbers of the first block of the inode bitmap, if it has one. -/
def Superblock.reachableInodes (superblock : Superblock) : ℕ :=
  8 * min (superblock.inodeBitmapSize * superblock.blockSize) superblock.blockSize

/-- An allocation of which only the field `inode_number` is kept. -/
def allocateInode (garbage : Bytes) (fs : Context) : Option (ℕ × Context) :=
  (getFreeInodeAndMarkBitmap garbage fs).map fun result ↦ (result.1.inodeNumber, result.2)

def Context.markedInode (fs : Context) (number : ℕ) : Context :=
  fs.edited fs.superblock.inodeBitmapPointersStart fs.superblock.inodeBitmapSize
    (number / 8 % fs.superblock.blockSize) (· ||| 1#8 <<< (number % 8))

def Context.seenInodeBits (fs : Context) (garbage : Bytes) : ℕ → Bool :=
  bitOf (fs.device.loaded fs.superblock.inodeBitmapPointersStart fs.superblock.inodeBitmapSize
    ⟨PAGE_SIZE * 16, garbage⟩).bytes

def Superblock.seenInodes (superblock : Superblock) : ℕ :=
  8 * min ((DIOSFS_NUM_INODE_POINTER_BLOCKS + 1) * superblock.blockSize) (PAGE_SIZE * 16)

def inodeScanner (superblock : Superblock) : Scanner Bytes Context :=
  ⟨fun garbage fs ↦ fs.seenInodeBits garbage, superblock.seenInodes, (· % 2 ^ 16),
    Context.markedInode⟩

theorem wrap_of_lt {blockSize : ℕ} (block byte : ℕ) (hbyte : byte < blockSize) :
    wrap blockSize (block, byte) = (block, byte) :=
  if_neg (by simp only; omega)

theorem allocateInode_eq (hplaced : Placed fs .inode)
    (hsize : fs.superblock.inodeBitmapSize * fs.superblock.blockSize ≤ PAGE_SIZE * 16)
    (garbage : Bytes) :
    allocateInode garbage fs = (inodeScanner fs.superblock).allocate garbage fs := by
  have hlimit : PAGE_SIZE * 16 ≤ BUFFER_SIZE := by decide
  have heq := @markFirstFree_eq fs _ hplaced.blockSize_eq _ DIOSFS_NUM_INODE_POINTER_BLOCKS
    (wrap fs.superblock.blockSize) ⟨PAGE_SIZE * 16, garbage⟩ hplaced.onDevice (hsize.trans hlimit)
    hsize wrap_of_lt (fun _ byte ↦ byte)
  simp only [bitmapStart, bitmapSize] at heq
  simp only [Scanner.allocate, inodeScanner, Context.seenInodeBits, seenInodes]
  rw [allocateInode, getFreeInodeAndMarkBitmap, heq, scanLimit]
  cases firstFree (bitOf (fs.device.loaded fs.superblock.inodeBitmapPointersStart
    fs.superblock.inodeBitmapSize ⟨PAGE_SIZE * 16, garbage⟩).bytes) _ 0 <;> rfl

theorem bitmapBit_markedInode (hplaced : Placed fs .inode) (num pos : ℕ) :
    (fs.markedInode num).bitmapBit .inode pos =
      (fs.bitmapBit .inode pos ||
        (decide (num / 8 % fs.superblock.blockSize <
          fs.superblock.inodeBitmapSize * fs.superblock.blockSize) &&
        pos == num % (8 * fs.superblock.blockSize))) := by
  have hbit := bitmapBit_edited_mark hplaced.blockSize_eq .inode fs.superblock.inodeBitmapSize
    (num % (8 * fs.superblock.blockSize)) pos
  rw [Nat.mod_mul_right_div_self, Nat.mod_mul_right_mod] at hbit
  exact hbit

theorem size_le_of_allocateInode (hplaced : Placed fs .inode)
    (hallocate : allocateInode garbage fs = some (num, after)) :
    fs.superblock.inodeBitmapSize * fs.superblock.blockSize ≤ PAGE_SIZE * 16 := by
  obtain ⟨⟨inode, last⟩, hfree, -⟩ := map_eq_some_iff.mp hallocate
  obtain ⟨⟨found, mid⟩, hmark, -⟩ := bind_eq_some_iff.mp hfree
  obtain ⟨⟨status, buf, dev⟩, hread, hmark⟩ := bind_eq_some_iff.mp hmark
  by_cases hstatus : status = .success
  · subst hstatus
    have hsize := (le_of_blockRead hplaced.onDevice hread).2
    rw [hplaced.blockSize_eq] at hsize
    exact hsize
  · exact absurd hmark (by simp [hstatus])

/-- The numbers in the inodes are different, their bits were clear, and exactly these bits of the disk
are now set. -/
structure AllocatesInodes (fs after : Context) (numbers : List ℕ) : Prop where
  taken : Taken (fs.bitmapBit .inode) (after.bitmapBit .inode) numbers
  front : ∀ position < fs.superblock.firstBit .inode, after.bit position = fs.bit position

/-- What a run keeps: the superblock and the bits in front of the bitmap. -/
structure ReachedInodes (fs after : Context) : Prop where
  superblock : after.superblock = fs.superblock
  placed : Placed after .inode
  front : ∀ position < fs.superblock.firstBit .inode, after.bit position = fs.bit position

theorem ReachedInodes.markedInode (hreached : ReachedInodes fs after) (num : ℕ) :
    ReachedInodes fs (after.markedInode num) := by
  refine ⟨hreached.superblock, hreached.placed.edited _ _ _ _, fun pos hpos ↦ ?_⟩
  rw [← hreached.front pos hpos]
  rw [← hreached.superblock] at hpos
  exact bit_edited_of_lt hreached.placed.blockSize_eq .inode _ _ _ hpos
    (Nat.mod_lt _ (by decide))

theorem inodeScanner_sound (hsize : fs.superblock.blockSize = DIOSFS_BLOCKSIZE) :
    (inodeScanner fs.superblock).Sound (fun state ↦ state.bitmapBit .inode) (ReachedInodes fs)
      fs.superblock.reachableInodes where
  le := by
    simp only [inodeScanner, reachableInodes, seenInodes,
      DIOSFS_NUM_INODE_POINTER_BLOCKS, hsize, DIOSFS_BLOCKSIZE, PAGE_SIZE]
    omega
  seen hreached hbit := by
    rw [reachableInodes, ← hreached.superblock] at hbit
    exact bitOf_loaded hreached.placed.blockSize_eq .inode _ (by omega)
  -- The field has room for the numbers of one block.
  name hnum := by
    rw [reachableInodes, hsize, DIOSFS_BLOCKSIZE] at hnum
    exact Nat.mod_eq_of_lt (by omega)
  keeps number hreached := hreached.markedInode number
  set {state number} hreached hnum := by
    funext pos
    rw [reachableInodes, ← hreached.superblock] at hnum
    have hbyte : number / 8 % state.superblock.blockSize <
        state.superblock.inodeBitmapSize * state.superblock.blockSize := by
      rw [Nat.mod_eq_of_lt (by omega)]
      omega
    refine (bitmapBit_markedInode hreached.placed number pos).trans ?_
    rw [decide_eq_true hbyte, Bool.true_and, Nat.mod_eq_of_lt (by omega), or_beq_eq_update]
  frame {state number pos} hreached _ hposition := by
    rw [reachableInodes, ← hreached.superblock] at hposition
    have hmod : number % (8 * state.superblock.blockSize) =
        8 * (number / 8 % state.superblock.blockSize) + number % 8 := by
      rw [Nat.mod_mul, add_comm]
    have hbyte := Nat.mod_lt (number / 8) hreached.placed.blockSize_pos
    have hother : (decide (number / 8 % state.superblock.blockSize <
        state.superblock.inodeBitmapSize * state.superblock.blockSize) &&
        pos == number % (8 * state.superblock.blockSize)) = false := by
      simp only [Bool.and_eq_false_iff, decide_eq_false_iff_not, beq_eq_false_iff_ne, hmod]
      omega
    refine (bitmapBit_markedInode hreached.placed number pos).trans ?_
    rw [hother, Bool.or_false]

/-- A run of allocations is exact if and only if it is empty, or the bitmap fits into the buffer and
there are enough clear bits in its first block. -/
theorem allocatesInodes_iff (hplaced : Placed fs .inode)
    (hblockSize : fs.superblock.blockSize = DIOSFS_BLOCKSIZE) :
    (∃ numbers after, takeEach allocateInode garbages fs = some (numbers, after) ∧
        AllocatesInodes fs after numbers) ↔
      garbages = [] ∨
        fs.superblock.inodeBitmapSize * fs.superblock.blockSize ≤ PAGE_SIZE * 16 ∧
          garbages.length ≤
            (clearBits (fs.bitmapBit .inode) fs.superblock.reachableInodes).length := by
  have hreached : ReachedInodes fs fs := ⟨rfl, hplaced, fun _ _ ↦ rfl⟩
  have hsound := inodeScanner_sound hblockSize
  have hstep : fs.superblock.inodeBitmapSize * fs.superblock.blockSize ≤ PAGE_SIZE * 16 →
      ∀ {garbage state}, ReachedInodes fs state →
        allocateInode garbage state = (inodeScanner fs.superblock).allocate garbage state := by
    intro hsize garbage state hreached
    rw [allocateInode_eq hreached.placed (hreached.superblock ▸ hsize), hreached.superblock]
  constructor
  · rintro ⟨numbers, after, hrun, hallocates⟩
    cases garbages with
    | nil => exact .inl rfl
    | cons garbage garbages =>
      obtain ⟨⟨num, mid⟩, hallocate, -⟩ := bind_eq_some_iff.mp hrun
      have hsize := size_le_of_allocateInode hplaced hallocate
      exact .inr ⟨hsize, (hsound.taken_takeEach_iff (hstep hsize) hreached).mp
        ⟨_, _, hrun, hallocates.taken⟩⟩
  · rintro (rfl | ⟨hsize, hlen⟩)
    · exact ⟨[], fs, rfl, Taken.nil _, fun _ _ ↦ rfl⟩
    · obtain ⟨numbers, after, hrun, htaken⟩ :=
        (hsound.taken_takeEach_iff (hstep hsize) hreached).mpr hlen
      exact ⟨numbers, after, hrun, htaken,
        (hsound.takeEach_frame (hstep hsize) hreached hrun).2.1.front⟩

/-- A file system whose inode bitmap is a function of the bit shows the bytes of the disk. -/
structure ShowsInodes (fs : Context) (view : Diosfs.Context) : Prop where
  size_eq : view.superblock.inodeBitmapSize = fs.superblock.inodeBitmapSize
  bits_eq : view.inodeBitmap = fs.bitmapBit .inode

/-- As long as a bit that the scan looks at is clear, the allocation over the bytes and the one over the
bits return the same inode, and the bits still show the bytes. -/
theorem ShowsInodes.getFreeInodeAndMarkBitmap {view : Diosfs.Context} (hshows : ShowsInodes fs view)
    (hplaced : Placed fs .inode) (hblockSize : fs.superblock.blockSize = DIOSFS_BLOCKSIZE)
    (hsize : fs.superblock.inodeBitmapSize * fs.superblock.blockSize ≤ PAGE_SIZE * 16)
    (garbage : Bytes) {rest : List ℕ}
    (hclear : clearBits (fs.bitmapBit .inode) (min fs.superblock.seenInodes
      (8 * (fs.superblock.inodeBitmapSize * fs.superblock.blockSize))) = number :: rest) :
    allocateInode garbage fs = some (number % 2 ^ 16, fs.markedInode number) ∧
      Diosfs.getFreeInodeAndMarkBitmap view = some
        ({ Inode.zero with inodeNumber := number % 2 ^ 16 },
          view.setInodeBit (number % Diosfs.BITS_PER_BLOCK) true) ∧
      ShowsInodes (fs.markedInode number)
        (view.setInodeBit (number % Diosfs.BITS_PER_BLOCK) true) := by
  have hbits : Diosfs.BITS_PER_BLOCK = 8 * fs.superblock.blockSize := by
    rw [hblockSize]
    rfl
  refine ⟨?_, ?_, hshows.size_eq, ?_⟩
  · have hfound : firstFree (fs.seenInodeBits garbage) fs.superblock.seenInodes 0 = some number :=
      firstFree_of_clearBits hclear (min_le_left _ _) fun bit hbit ↦
        bitOf_loaded hplaced.blockSize_eq .inode _ (lt_of_lt_of_le hbit (min_le_right _ _))
    rw [allocateInode_eq hplaced hsize]
    simp only [Scanner.allocate, inodeScanner, hfound, map_some]
  · have hfound : firstFree view.inodeBitmap
        (view.superblock.inodeBitmapSize * Diosfs.BITS_PER_BLOCK) 0 = some number := by
      refine firstFree_of_clearBits hclear ?_ fun bit _ ↦ by rw [hshows.bits_eq]
      rw [hshows.size_eq, hbits, mul_left_comm]
      exact min_le_right _ _
    have hfits : ¬Diosfs.PAGE_SIZE * 16 < view.superblock.inodeBitmapSize * DIOSFS_BLOCKSIZE := by
      rw [hshows.size_eq, ← hblockSize]
      exact not_lt.mpr hsize
    simp [Diosfs.getFreeInodeAndMarkBitmap, hfits, hfound]
  · funext pos
    have hpos : 0 < fs.superblock.inodeBitmapSize := by
      have hnum := (mem_clearBits.mp (hclear ▸ List.mem_cons_self)).1
      by_contra hzero
      simp [Nat.eq_zero_of_not_pos hzero] at hnum
    have hbyte : number / 8 % fs.superblock.blockSize <
        fs.superblock.inodeBitmapSize * fs.superblock.blockSize :=
      lt_of_lt_of_le (Nat.mod_lt _ hplaced.blockSize_pos) (Nat.le_mul_of_pos_left _ hpos)
    rw [bitmapBit_markedInode hplaced, decide_eq_true hbyte, Bool.true_and, ← hbits, ← hshows.bits_eq,
      Diosfs.Context.setInodeBit_inodeBitmap, or_beq_eq_update]

end DionysOS.Filesystem.DiosfsDisk
