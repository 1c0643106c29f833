import DionysOS.Filesystem.DiosfsWrite

/-!
# The pieces of a transfer

The loops that read and write a file share their arithmetic: they start in the block with the
offset, shorten the first piece by what lies before it, and run up to an end block that is computed
from the number of bytes. `transferLoop` is that arithmetic alone, and both loops carry out the
pieces that it lists. The end block does not take the offset into account, so that the pieces add up
to the request only for some offsets; `transfers_exact_iff` says for which.
-/

namespace DionysOS.Filesystem.Diosfs

open Foundation.ByteRecords List
open Vfs (DIOSFS_BLOCKSIZE)

/-- One round of a transfer: a block of the file, and a number of bytes from a position in it on. -/
structure Piece where
  block : ℕ
  startOffset : ℕ
  byteSize : ℕ
deriving DecidableEq, Repr

/-- The pieces of a transfer with a number of rounds to go, and the number of bytes left after
them. -/
def transferLoop : ℕ → ℕ → ℕ → ℕ → List Piece × ℕ
  | 0, _, _, bytesLeft => ([], bytesLeft)
  | rounds + 1, block, startOffset, bytesLeft =>
      let byteSize :=
        if DIOSFS_BLOCKSIZE - startOffset < bytesLeft then DIOSFS_BLOCKSIZE - startOffset
        else bytesLeft
      let (pieces, left) := transferLoop rounds (block + 1) 0 (bytesLeft - byteSize)
      (⟨block, startOffset, byteSize⟩ :: pieces, left)

/-- The transfers of `diosfs_write_bytes_to_inode`. -/
def writeTransfers (offset bytes : ℕ) : List Piece × ℕ :=
  transferLoop (numBlocksToWrite (offset % DIOSFS_BLOCKSIZE) bytes + 1) (offset / DIOSFS_BLOCKSIZE)
    (offset % DIOSFS_BLOCKSIZE) bytes

/-- The transfers of `diosfs_read_bytes_from_inode`. -/
def readTransfers (offset bytes : ℕ) : List Piece × ℕ :=
  transferLoop (bytes / DIOSFS_BLOCKSIZE + 1) (offset / DIOSFS_BLOCKSIZE)
    (offset % DIOSFS_BLOCKSIZE) bytes

/-- Write the pieces of a buffer to the blocks of a file. -/
def writePieces (inode : Inode) : List Piece → Bytes → Context → Option Context
  | [], _, fs => some fs
  | piece :: pieces, buffer, fs => do
      let number ← getRelativeBlockNumberFromFile fs inode piece.block
      let fs ← writeBlockByNumber fs number buffer
      writePieces inode pieces (fun position ↦ buffer (piece.byteSize + position)) fs

/-- Read the blocks of the pieces into a buffer, one behind the other. -/
def readPieces (fs : Context) (inode : Inode) (buffer : ℕ) : List Piece → ℕ → Bytes → Outcome
  | [], _, memory => ⟨memory, some .success⟩
  | piece :: pieces, bytesRead, memory =>
      match fileBlock fs inode piece.block with
      | none => ⟨memory, none⟩
      | some data =>
          readPieces fs inode buffer pieces (bytesRead + piece.byteSize)
            (transfer memory (buffer + bytesRead) data)

theorem writeLoop_eq_writePieces (inode : Inode) :
    ∀ (rounds block startOffset bytesLeft : ℕ) (buf : Bytes) (fs : Context),
      writeLoop inode rounds block startOffset bytesLeft buf fs =
        writePieces inode (transferLoop rounds block startOffset bytesLeft).1 buf fs
  | 0, _, _, _, _, _ => rfl
  | rounds + 1, block, startOffset, bytesLeft, buf, fs => by
      simp only [writeLoop, transferLoop, writePieces,
        writeLoop_eq_writePieces inode rounds (block + 1)]

theorem readLoop_eq_readPieces (fs : Context) (inode : Inode) (buf : ℕ) :
    ∀ (rounds block startOffset bytesRead bytesToRead : ℕ) (mem : Bytes),
      readLoop fs inode buf rounds block startOffset bytesRead bytesToRead mem =
        readPieces fs inode buf (transferLoop rounds block startOffset bytesToRead).1 bytesRead
          mem
  | 0, _, _, _, _, _ => rfl
  | rounds + 1, block, startOffset, bytesRead, bytesToRead, mem => by
      cases hblock : fileBlock fs inode block with
      | none => simp only [readLoop, transferLoop, readPieces, hblock]
      | some data =>
        simp only [readLoop, transferLoop, readPieces, hblock,
          readLoop_eq_readPieces fs inode buf rounds (block + 1)]

variable {block startOffset bytesLeft offset off bytes : ℕ}

theorem transferLoop_blocks :
    ∀ (rounds block startOffset bytesLeft : ℕ),
      (transferLoop rounds block startOffset bytesLeft).1.map Piece.block = range' block rounds
  | 0, _, _, _ => rfl
  | rounds + 1, block, startOffset, bytesLeft => by
      rw [transferLoop, range'_succ, map_cons, transferLoop_blocks rounds]

theorem transferLoop_left (hstart : startOffset < DIOSFS_BLOCKSIZE) (rounds block bytesLeft : ℕ) :
    (transferLoop (rounds + 1) block startOffset bytesLeft).2 =
      bytesLeft - ((rounds + 1) * DIOSFS_BLOCKSIZE - startOffset) := by
  induction rounds generalizing block startOffset bytesLeft with
  | zero =>
    simp only [transferLoop]
    split <;> omega
  | succ rounds ih =>
    rw [transferLoop, ih (by decide), add_mul (rounds + 1), one_mul]
    split <;> omega

theorem transferLoop_nonempty_iff (hstart : startOffset < DIOSFS_BLOCKSIZE) (hleft : 0 < bytesLeft)
    (rounds block : ℕ) :
    (∀ piece ∈ (transferLoop (rounds + 1) block startOffset bytesLeft).1, 0 < piece.byteSize) ↔
      rounds * DIOSFS_BLOCKSIZE < startOffset + bytesLeft := by
  induction rounds generalizing block startOffset bytesLeft with
  | zero =>
    simp only [transferLoop, mem_singleton, forall_eq]
    split <;> omega
  | succ rounds ih =>
    rw [transferLoop, forall_mem_cons]
    simp only
    split
    · rw [ih (by decide) (by omega), add_mul, one_mul]
      omega
    · -- Nothing is left after the first piece, so the second one is empty.
      rw [Nat.sub_self, add_mul, one_mul]
      have hempty : ¬∀ piece ∈ (transferLoop (rounds + 1) (block + 1) 0 0).1, 0 < piece.byteSize := by
        simp [transferLoop]
      simp only [hempty, and_false, false_iff]
      omega

/-- A transfer moves exactly the bytes that were asked for: all of them, from exactly the blocks that
contain them, and never none. -/
structure Exact (transfers : List Piece × ℕ) (offset bytes : ℕ) : Prop where
  finished : transfers.2 = 0
  blocks : transfers.1.map Piece.block = range' (offset / DIOSFS_BLOCKSIZE)
    ((offset + bytes - 1) / DIOSFS_BLOCKSIZE + 1 - offset / DIOSFS_BLOCKSIZE)
  nonempty : ∀ piece ∈ transfers.1, 0 < piece.byteSize

theorem exact_transferLoop_iff (hbytes : 0 < bytes) (numBlocks : ℕ) :
    Exact (transferLoop (numBlocks + 1) (off / DIOSFS_BLOCKSIZE) (off % DIOSFS_BLOCKSIZE) bytes)
        off bytes ↔
      numBlocks = (off % DIOSFS_BLOCKSIZE + bytes - 1) / DIOSFS_BLOCKSIZE := by
  have hstart : off % DIOSFS_BLOCKSIZE < DIOSFS_BLOCKSIZE := Nat.mod_lt _ (by decide)
  have hleft := transferLoop_left hstart numBlocks (off / DIOSFS_BLOCKSIZE) bytes
  have hnonempty := transferLoop_nonempty_iff hstart hbytes numBlocks (off / DIOSFS_BLOCKSIZE)
  have hblocks := transferLoop_blocks (numBlocks + 1) (off / DIOSFS_BLOCKSIZE)
    (off % DIOSFS_BLOCKSIZE) bytes
  simp only [DIOSFS_BLOCKSIZE] at *
  constructor
  · intro hexact
    have hfinished := hexact.finished
    have hlast := hnonempty.mp hexact.nonempty
    omega
  · intro hnum
    constructor
    · omega
    · rw [hblocks]
      congr 1
      simp only [DIOSFS_BLOCKSIZE]
      omega
    · apply hnonempty.mpr
      omega

/-- The end block of a read is the block of its last byte. -/
def ReadMeets (offset bytes : ℕ) : Prop :=
  1 ≤ offset % DIOSFS_BLOCKSIZE + bytes % DIOSFS_BLOCKSIZE ∧
    offset % DIOSFS_BLOCKSIZE + bytes % DIOSFS_BLOCKSIZE ≤ DIOSFS_BLOCKSIZE

/-- The end block of a write is the block of its last byte. -/
def WriteMeets (offset bytes : ℕ) : Prop :=
  if bytes < DIOSFS_BLOCKSIZE then offset % DIOSFS_BLOCKSIZE + bytes ≠ DIOSFS_BLOCKSIZE
  else ReadMeets offset bytes

instance (offset bytes : ℕ) : Decidable (ReadMeets offset bytes) :=
  instDecidableAnd

instance (offset bytes : ℕ) : Decidable (WriteMeets offset bytes) := by
  unfold WriteMeets
  infer_instance

theorem numBlocksToWrite_of_lt (hstart : startOffset < DIOSFS_BLOCKSIZE)
    (hshort : bytes < DIOSFS_BLOCKSIZE) :
    numBlocksToWrite startOffset bytes = (startOffset + bytes) / DIOSFS_BLOCKSIZE := by
  have hnone : bytes / DIOSFS_BLOCKSIZE = 0 := Nat.div_eq_of_lt hshort
  rw [numBlocksToWrite]
  by_cases hreach : (startOffset + bytes) % 2 ^ 64 / DIOSFS_BLOCKSIZE ≠ 0
  · rw [if_pos ⟨hreach, hnone⟩]
    simp only [DIOSFS_BLOCKSIZE] at *
    omega
  · rw [if_neg fun h ↦ hreach h.1]
    simp only [DIOSFS_BLOCKSIZE] at *
    omega

theorem numBlocksToWrite_of_le (hlong : DIOSFS_BLOCKSIZE ≤ bytes) :
    numBlocksToWrite startOffset bytes = bytes / DIOSFS_BLOCKSIZE := by
  have hsome : bytes / DIOSFS_BLOCKSIZE ≠ 0 := (Nat.div_pos hlong (by decide)).ne'
  exact if_neg fun h ↦ hsome h.2

theorem exact_readTransfers_iff (hbytes : 0 < bytes) :
    Exact (readTransfers off bytes) off bytes ↔ ReadMeets off bytes := by
  rw [readTransfers, exact_transferLoop_iff hbytes, ReadMeets]
  simp only [DIOSFS_BLOCKSIZE]
  omega

theorem exact_writeTransfers_iff (hbytes : 0 < bytes) :
    Exact (writeTransfers off bytes) off bytes ↔ WriteMeets off bytes := by
  have hstart : off % DIOSFS_BLOCKSIZE < DIOSFS_BLOCKSIZE := Nat.mod_lt _ (by decide)
  rw [writeTransfers, exact_transferLoop_iff hbytes, WriteMeets]
  by_cases hshort : bytes < DIOSFS_BLOCKSIZE
  · rw [if_pos hshort, numBlocksToWrite_of_lt hstart hshort]
    simp only [DIOSFS_BLOCKSIZE] at *
    omega
  · rw [if_neg hshort, numBlocksToWrite_of_le (not_lt.mp hshort), ReadMeets]
    simp only [DIOSFS_BLOCKSIZE] at *
    omega

/-- **The loops move exactly the requested bytes for some offsets only.** A write of less than a
block must not end at the end of a block; every other transfer must have a part of a block at one of
its ends, and these parts must fit into one block. -/
theorem transfers_exact_iff (offset bytes : ℕ) (hbytes : 1 ≤ bytes) :
    Exact (writeTransfers offset bytes) offset bytes ∧
        Exact (readTransfers offset bytes) offset bytes ↔
      WriteMeets offset bytes ∧ ReadMeets offset bytes := by
  rw [exact_writeTransfers_iff hbytes, exact_readTransfers_iff hbytes]

theorem transfers_exact_threeBlocks :
    Exact (writeTransfers 1029 3000) 1029 3000 ∧ Exact (readTransfers 1029 3000) 1029 3000 :=
  (transfers_exact_iff 1029 3000 (by decide)).mpr (by decide)

/-- A whole block takes a second round that moves nothing. A block and a half behind an offset of 600
takes two rounds, where three blocks are concerned. -/
theorem transfers_not_exact :
    writeTransfers 0 1024 = ([⟨0, 0, 1024⟩, ⟨1, 0, 0⟩], 0) ∧
      ¬Exact (writeTransfers 0 1024) 0 1024 ∧
      writeTransfers 600 1536 = ([⟨0, 600, 424⟩, ⟨1, 0, 1024⟩], 88) ∧
      ¬Exact (writeTransfers 600 1536) 600 1536 ∧ ¬Exact (readTransfers 600 1536) 600 1536 := by
  rw [exact_writeTransfers_iff (by decide), exact_writeTransfers_iff (by decide),
    exact_readTransfers_iff (by decide)]
  decide

end DionysOS.Filesystem.Diosfs
