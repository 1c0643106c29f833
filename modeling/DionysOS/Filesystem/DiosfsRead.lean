import DionysOS.Filesystem.DiosfsBlocks

/-!
# Reading files in diosfs

`diosfs_read` with what it calls, over a byte memory: `diosfs_read_bytes_from_inode` and the
resolution of logical blocks. The device transfers whole blocks, whatever number of bytes is asked
for, and the loop moves its destination by the number of bytes it has asked for. So the last block
of a read may reach past the end of the buffer; `read_frame_iff` says exactly when it does not.

A panic ends a call with the memory as it is then. The buffers that the functions allocate for
themselves are not part of the memory here.
-/

namespace DionysOS.Filesystem.Diosfs

open Foundation.ByteRecords Option
open Vfs (VnodeType DIOSFS_BLOCKSIZE NUM_BLOCKS_DIRECT)

def NUM_BLOCKS_DOUBLE_INDIRECTION : ℕ :=
  NUM_BLOCKS_IN_INDIRECTION_BLOCK * NUM_BLOCKS_IN_INDIRECTION_BLOCK

def NUM_BLOCKS_TRIPLE_INDIRECTION : ℕ :=
  NUM_BLOCKS_IN_INDIRECTION_BLOCK * NUM_BLOCKS_IN_INDIRECTION_BLOCK * NUM_BLOCKS_IN_INDIRECTION_BLOCK

/-- `struct diosfs_byte_offset_indices`, by the levels of indirection. -/
inductive ByteOffsetIndices where
  | direct (directBlockNumber : ℕ)
  | single (firstLevelBlockNumber : ℕ)
  | double (secondLevelBlockNumber firstLevelBlockNumber : ℕ)
  | triple (thirdLevelBlockNumber secondLevelBlockNumber firstLevelBlockNumber : ℕ)
deriving DecidableEq, Repr

def indirectionIndicesForBlockNumber (blockNumber : ℕ) : Option ByteOffsetIndices :=
  if blockNumber < NUM_BLOCKS_DIRECT then some (.direct blockNumber)
  else if blockNumber < NUM_BLOCKS_IN_INDIRECTION_BLOCK + NUM_BLOCKS_DIRECT then
    let blockNumber := blockNumber - NUM_BLOCKS_DIRECT
    some (.single (blockNumber % NUM_BLOCKS_IN_INDIRECTION_BLOCK))
  else if blockNumber < NUM_BLOCKS_DOUBLE_INDIRECTION + NUM_BLOCKS_IN_INDIRECTION_BLOCK +
      NUM_BLOCKS_DIRECT then
    let blockNumber := blockNumber - (NUM_BLOCKS_IN_INDIRECTION_BLOCK + NUM_BLOCKS_DIRECT)
    some (.double (blockNumber / NUM_BLOCKS_IN_INDIRECTION_BLOCK)
      (blockNumber % NUM_BLOCKS_IN_INDIRECTION_BLOCK))
  else if blockNumber < NUM_BLOCKS_TRIPLE_INDIRECTION + NUM_BLOCKS_DOUBLE_INDIRECTION +
      NUM_BLOCKS_IN_INDIRECTION_BLOCK + NUM_BLOCKS_DIRECT then
    let blockNumber := blockNumber -
      (NUM_BLOCKS_DOUBLE_INDIRECTION + NUM_BLOCKS_IN_INDIRECTION_BLOCK + NUM_BLOCKS_DIRECT)
    let third := blockNumber / NUM_BLOCKS_DOUBLE_INDIRECTION
    some (.triple third
      ((blockNumber - third * NUM_BLOCKS_DOUBLE_INDIRECTION) / NUM_BLOCKS_IN_INDIRECTION_BLOCK)
      (blockNumber % NUM_BLOCKS_IN_INDIRECTION_BLOCK))
  else none

/-- `struct diosfs_byte_offset_indices`. -/
@[ext] structure IndexFields where
  levelsIndirection : ℕ
  directBlockNumber : ℕ
  thirdLevelBlockNumber : ℕ
  secondLevelBlockNumber : ℕ
  firstLevelBlockNumber : ℕ

/-- The structure that the function returns. Its fields have 16 bits. -/
def ByteOffsetIndices.fields : ByteOffsetIndices → IndexFields
  | .direct number => ⟨0, number % 2 ^ 16, 0, 0, 0⟩
  | .single first => ⟨1, 0, 0, 0, first % 2 ^ 16⟩
  | .double second first => ⟨2, 0, 0, second % 2 ^ 16, first % 2 ^ 16⟩
  | .triple third second first => ⟨3, 0, third % 2 ^ 16, second % 2 ^ 16, first % 2 ^ 16⟩

/-- What `diosfs_indirection_indices_for_block_number` returns. -/
def indexFields (blockNumber : ℕ) : Option IndexFields :=
  (indirectionIndicesForBlockNumber blockNumber).map ByteOffsetIndices.fields

/-- The tuples of indices, and the number that each stands for: the base of its level and the
mixed-radix value of its indices. Indices that the level does not use are zero. -/
def IndexFields.Denotes : IndexFields → ℕ → Prop
  | ⟨level, direct, third, second, first⟩, number =>
      level = 0 ∧ direct < 10 ∧ third = 0 ∧ second = 0 ∧ first = 0 ∧ number = direct ∨
      level = 1 ∧ direct = 0 ∧ third = 0 ∧ second = 0 ∧ first < 128 ∧ number = 10 + first ∨
      level = 2 ∧ direct = 0 ∧ third = 0 ∧ second < 128 ∧ first < 128 ∧
        number = 10 + 128 + (128 * second + first) ∨
      level = 3 ∧ direct = 0 ∧ third < 128 ∧ second < 128 ∧ first < 128 ∧
        number = 10 + 128 + 128 ^ 2 + (128 ^ 2 * third + 128 * second + first)

theorem indexFields_denotes {number : ℕ} (hnumber : number < 10 + 128 + 128 ^ 2 + 128 ^ 3) :
    ∃ indices, indexFields number = some indices ∧ indices.Denotes number := by
  obtain ⟨hdirect, hsingle, hdouble, htriple⟩ : NUM_BLOCKS_DIRECT = 10 ∧
    NUM_BLOCKS_IN_INDIRECTION_BLOCK = 128 ∧ NUM_BLOCKS_DOUBLE_INDIRECTION = 16384 ∧
      NUM_BLOCKS_TRIPLE_INDIRECTION = 2097152 := by decide
  simp only [indexFields, indirectionIndicesForBlockNumber, hdirect, hsingle, hdouble, htriple]
  split_ifs
  · exact ⟨_, rfl, .inl (by omega)⟩
  · exact ⟨_, rfl, .inr (.inl (by omega))⟩
  · exact ⟨_, rfl, .inr (.inr (.inl (by omega)))⟩
  · exact ⟨_, rfl, .inr (.inr (.inr (by omega)))⟩
  · omega

/-- **The indices of block numbers.** The numbers that an inode can name and the tuples of indices
correspond one to one. -/
theorem indexFields_bijective :
    (∀ number < 10 + 128 + 128 ^ 2 + 128 ^ 3,
      ∃ indices, indexFields number = some indices ∧ indices.Denotes number) ∧
    (∀ (indices : IndexFields) (number : ℕ), indices.Denotes number →
      number < 10 + 128 + 128 ^ 2 + 128 ^ 3 ∧ indexFields number = some indices) ∧
    ∀ (indices : IndexFields) (number other : ℕ),
      indices.Denotes number → indices.Denotes other → number = other := by
  refine ⟨fun number ↦ indexFields_denotes, fun indices number hdenotes ↦ ?_, ?_⟩
  · have hbound : number < 10 + 128 + 128 ^ 2 + 128 ^ 3 := by
      simp only [IndexFields.Denotes] at hdenotes
      omega
    obtain ⟨other, hfields, hother⟩ := indexFields_denotes hbound
    refine ⟨hbound, hfields.trans (congrArg some ?_)⟩
    -- A number has the digits of one tuple only.
    simp only [IndexFields.Denotes] at hdenotes hother
    apply IndexFields.ext <;> omega
  · intro indices number other hnumber hother
    simp only [IndexFields.Denotes] at hnumber hother
    omega

/-- `indirection_block[index]` of the pointer block with a number. -/
def followPointer (fs : Context) (blockNumber index : ℕ) : Option ℕ :=
  (readBlockByNumber fs blockNumber).map fun block ↦ load block 8 (8 * index)

def getRelativeBlockNumberFromFile (fs : Context) (inode : Inode) (currentBlock : ℕ) :
    Option ℕ := do
  match ← indirectionIndicesForBlockNumber currentBlock with
  | .direct number => inode.blocks[number]?
  | .single first => followPointer fs inode.singleIndirect first
  | .double second first =>
      let number ← followPointer fs inode.doubleIndirect second
      followPointer fs number first
  | .triple third second first =>
      let number ← followPointer fs inode.tripleIndirect third
      let number ← followPointer fs number second
      followPointer fs number first

/-- The contents of a logical block of a file, as the read loop obtains them. -/
def fileBlock (fs : Context) (inode : Inode) (block : ℕ) : Option Bytes := do
  let number ← getRelativeBlockNumberFromFile fs inode block
  readBlockByNumber fs number

/-- The memory after the transfer of a block from the device. -/
def transfer (memory : Bytes) (address : ℕ) (block : Bytes) : Bytes := fun position ↦
  if address ≤ position ∧ position < address + DIOSFS_BLOCKSIZE then block (position - address)
  else memory position

inductive ReadResult where
  | success
  | bufferTooSmall
  | unexpectedSymlinkType
deriving DecidableEq, Repr

/-- The memory after a call, and what it returned unless it panicked. -/
structure Outcome where
  memory : Bytes
  returned : Option ReadResult

/-- The loop of `diosfs_read_bytes_from_inode`, with a number of rounds to go. -/
def readLoop (fs : Context) (inode : Inode) (buffer : ℕ) :
    ℕ → ℕ → ℕ → ℕ → ℕ → Bytes → Outcome
  | 0, _, _, _, _, memory => ⟨memory, some .success⟩
  | rounds + 1, block, startOffset, bytesRead, bytesToRead, memory =>
      let byteSize :=
        if DIOSFS_BLOCKSIZE - startOffset < bytesToRead then DIOSFS_BLOCKSIZE - startOffset
        else bytesToRead
      match fileBlock fs inode block with
      | none => ⟨memory, none⟩
      | some data =>
          readLoop fs inode buffer rounds (block + 1) 0 (bytesRead + byteSize)
            (bytesToRead - byteSize) (transfer memory (buffer + bytesRead) data)

def readBytesFromInode (fs : Context) (inode : Inode) (buffer bufferSize offset readSizeBytes : ℕ)
    (memory : Bytes) : Outcome :=
  let numBlocksToRead := readSizeBytes / DIOSFS_BLOCKSIZE
  if inode.type ≠ typeCode .file then ⟨memory, none⟩
  else if bufferSize < DIOSFS_BLOCKSIZE ∨ bufferSize < DIOSFS_BLOCKSIZE * numBlocksToRead then
    ⟨memory, some .bufferTooSmall⟩
  else if inode.size < offset then ⟨memory, none⟩
  else
    -- The loop runs up to and including `end_block`.
    readLoop fs inode buffer (numBlocksToRead + 1) (offset / DIOSFS_BLOCKSIZE)
      (offset % DIOSFS_BLOCKSIZE) 0 readSizeBytes memory

/-- `PGROUNDUP`. -/
def pageRoundUp (size : ℕ) : ℕ := (size + PAGE_SIZE - 1) % 2 ^ 64 / PAGE_SIZE * PAGE_SIZE

/-- `diosfs_read`. `linkType` is the type of the vnode that a link leads to. The offset is passed on
without its whole blocks. -/
def read (fs : Context) (linkType : Option VnodeType) (vnode : Vnode) (offset buffer bytes : ℕ)
    (memory : Bytes) : Outcome :=
  if vnode.vnodeType = .hardLink ∧ linkType ≠ some .file then
    ⟨memory, some .unexpectedSymlinkType⟩
  else
    readBytesFromInode fs (fs.inodes vnode.vnodeInodeNumber) buffer (pageRoundUp bytes)
      (offset % DIOSFS_BLOCKSIZE) bytes memory

variable {fs : Context} {inode : Inode} {memory mem : Bytes} {buffer buf position pos block rounds : ℕ}

theorem transfer_of_outside {addr : ℕ} (data : Bytes)
    (houtside : position < addr ∨ addr + DIOSFS_BLOCKSIZE ≤ position) :
    transfer memory addr data position = memory position :=
  if_neg (by omega)

theorem readLoop_of_outside :
    ∀ (rounds block startOffset bytesRead bytesToRead : ℕ) (mem : Bytes),
      pos < buf + bytesRead ∨
        buf + bytesRead + rounds * DIOSFS_BLOCKSIZE ≤ pos →
      (readLoop fs inode buf rounds block startOffset bytesRead bytesToRead mem).memory
        pos = mem pos
  | 0, _, _, _, _, _, _ => rfl
  | rounds + 1, block, startOffset, bytesRead, bytesToRead, mem, houtside => by
      rw [add_mul, one_mul] at houtside
      simp only [readLoop]
      cases fileBlock fs inode block with
      | none => rfl
      | some data =>
        simp only
        rw [readLoop_of_outside rounds, transfer_of_outside _ (by omega)]
        split <;> omega

theorem readLoop_succ_of_none :
    ∀ (rounds block startOffset bytesRead bytesToRead : ℕ) (mem : Bytes),
      fileBlock fs inode (block + rounds) = none →
      (readLoop fs inode buf (rounds + 1) block startOffset bytesRead bytesToRead mem).memory =
        (readLoop fs inode buf rounds block startOffset bytesRead bytesToRead mem).memory
  | 0, block, _, _, _, _, hnone => by
      rw [add_zero] at hnone
      simp [readLoop, hnone]
  | rounds + 1, block, startOffset, bytesRead, bytesToRead, mem, hnone => by
      rw [readLoop, readLoop]
      cases fileBlock fs inode block with
      | none => rfl
      | some data =>
        exact readLoop_succ_of_none rounds _ _ _ _ _
          (by rwa [show block + 1 + rounds = block + (rounds + 1) by omega])

theorem readLoop_last (rounds block bytesRead bytesToRead : ℕ) (mem : Bytes)
    (hblocks : ∀ idx ≤ rounds, (fileBlock fs inode (block + idx)).isSome)
    (hleft : rounds * DIOSFS_BLOCKSIZE ≤ bytesToRead)
    (hlow : buf + bytesRead + rounds * DIOSFS_BLOCKSIZE ≤ pos)
    (hhigh : pos < buf + bytesRead + rounds * DIOSFS_BLOCKSIZE + DIOSFS_BLOCKSIZE) :
    ∃ data, fileBlock fs inode (block + rounds) = some data ∧
      (readLoop fs inode buf (rounds + 1) block 0 bytesRead bytesToRead mem).memory pos =
        data (pos - (buf + bytesRead + rounds * DIOSFS_BLOCKSIZE)) := by
  induction rounds generalizing block bytesRead bytesToRead mem with
  | zero =>
    obtain ⟨data, hdata⟩ := isSome_iff_exists.mp (hblocks 0 le_rfl)
    refine ⟨data, hdata, ?_⟩
    rw [Nat.add_zero] at hdata
    simp only [readLoop, hdata, Nat.zero_mul, Nat.add_zero] at hlow hhigh ⊢
    rw [transfer, if_pos ⟨hlow, hhigh⟩]
  | succ rounds ih =>
    obtain ⟨first, hfirst⟩ := isSome_iff_exists.mp (hblocks 0 (Nat.zero_le _))
    rw [Nat.add_zero] at hfirst
    rw [Nat.add_mul, Nat.one_mul] at hleft hlow hhigh
    -- More than this block is left to read, so the round asks for all of it.
    have hsize : (if DIOSFS_BLOCKSIZE - 0 < bytesToRead then DIOSFS_BLOCKSIZE - 0
        else bytesToRead) = DIOSFS_BLOCKSIZE := by
      split <;> omega
    have hothers : ∀ idx ≤ rounds, (fileBlock fs inode (block + 1 + idx)).isSome := by
      intro idx hidx
      rw [show block + 1 + idx = block + (idx + 1) by omega]
      exact hblocks (idx + 1) (by omega)
    obtain ⟨data, hdata, hbyte⟩ := ih (block + 1) (bytesRead + DIOSFS_BLOCKSIZE)
      (bytesToRead - DIOSFS_BLOCKSIZE) (transfer mem (buf + bytesRead) first) hothers
      (by omega) (by omega) (by omega)
    refine ⟨data, by rwa [show block + (rounds + 1) = block + 1 + rounds by omega], ?_⟩
    have hshift : buf + (bytesRead + DIOSFS_BLOCKSIZE) + rounds * DIOSFS_BLOCKSIZE =
        buf + bytesRead + (rounds + 1) * DIOSFS_BLOCKSIZE := by
      rw [Nat.add_mul, Nat.one_mul]
      omega
    rw [readLoop, hfirst, hsize, ← hshift]
    exact hbyte

/-- A regular file whose blocks are on the device. Its size fits into its field. -/
structure RegularFile (fs : Context) (inode : Inode) : Prop where
  type : inode.type = typeCode .file
  size_lt : inode.size < 2 ^ 32
  stored : ∀ block, block * DIOSFS_BLOCKSIZE < inode.size → (fileBlock fs inode block).isSome

variable {bytes startOffset : ℕ}

theorem le_pageRoundUp (hbytes : 1 ≤ bytes) (hlt : bytes < 2 ^ 32) :
    DIOSFS_BLOCKSIZE ≤ pageRoundUp bytes ∧
      DIOSFS_BLOCKSIZE * (bytes / DIOSFS_BLOCKSIZE) ≤ pageRoundUp bytes := by
  simp only [pageRoundUp, PAGE_SIZE, DIOSFS_BLOCKSIZE]
  omega

theorem read_eq_readLoop {vnode : Vnode} {off : ℕ} (htype : vnode.vnodeType = .file)
    (hfile : RegularFile fs (fs.inodes vnode.vnodeInodeNumber)) (hbytes : 1 ≤ bytes)
    (hend : off + bytes ≤ (fs.inodes vnode.vnodeInodeNumber).size) (linkType : Option VnodeType)
    (memory : Bytes) :
    read fs linkType vnode off buffer bytes memory =
      readLoop fs (fs.inodes vnode.vnodeInodeNumber) buffer (bytes / DIOSFS_BLOCKSIZE + 1) 0
        (off % DIOSFS_BLOCKSIZE) 0 bytes memory := by
  have hpos : 0 < DIOSFS_BLOCKSIZE := by decide
  have hsize := hfile.size_lt
  obtain ⟨hroom, hroom'⟩ := le_pageRoundUp hbytes (by omega)
  have hoffset := Nat.mod_le off DIOSFS_BLOCKSIZE
  rw [read, if_neg (by simp [htype]), readBytesFromInode, if_neg (not_not.mpr hfile.type),
    if_neg (by omega), if_neg (by omega), Nat.mod_mod, Nat.div_eq_of_lt (Nat.mod_lt _ hpos)]

theorem readLoop_first {data : Bytes} (hdata : fileBlock fs inode 0 = some data)
    (hbytes : DIOSFS_BLOCKSIZE ≤ bytes) (rounds : ℕ) (mem : Bytes) :
    readLoop fs inode buf (rounds + 1) 0 startOffset 0 bytes mem =
      readLoop fs inode buf rounds 1 0 (DIOSFS_BLOCKSIZE - startOffset)
        (bytes - (DIOSFS_BLOCKSIZE - startOffset)) (transfer mem buf data) := by
  have hsize : (if DIOSFS_BLOCKSIZE - startOffset < bytes then DIOSFS_BLOCKSIZE - startOffset
      else bytes) = DIOSFS_BLOCKSIZE - startOffset := by
    split <;> omega
  rw [readLoop, hdata, hsize, zero_add, zero_add]
  rfl

theorem exists_rounds (hbytes : DIOSFS_BLOCKSIZE ≤ bytes) :
    ∃ rounds, bytes / DIOSFS_BLOCKSIZE = rounds + 1 ∧
      rounds * DIOSFS_BLOCKSIZE + DIOSFS_BLOCKSIZE + bytes % DIOSFS_BLOCKSIZE = bytes := by
  simp only [DIOSFS_BLOCKSIZE] at *
  exact ⟨bytes / 1024 - 1, by omega, by omega⟩

theorem readLoop_frame (hbytes : DIOSFS_BLOCKSIZE ≤ bytes) (hfirst : (fileBlock fs inode 0).isSome)
    (hlast : DIOSFS_BLOCKSIZE ≤ bytes % DIOSFS_BLOCKSIZE + startOffset ∨
      fileBlock fs inode (bytes / DIOSFS_BLOCKSIZE) = none)
    (houtside : position < buffer ∨ buffer + bytes ≤ position) (memory : Bytes) :
    (readLoop fs inode buffer (bytes / DIOSFS_BLOCKSIZE + 1) 0 startOffset 0 bytes memory).memory
      position = memory position := by
  obtain ⟨data, hdata⟩ := isSome_iff_exists.mp hfirst
  obtain ⟨rounds, hrounds, hsplit⟩ := exists_rounds hbytes
  have hmemory : transfer memory buffer data position = memory position :=
    transfer_of_outside _ (by omega)
  rw [readLoop_first hdata hbytes, ← hmemory]
  rcases hlast with hends | hnone
  · apply readLoop_of_outside
    rw [hrounds, add_mul, one_mul]
    omega
  · rw [hrounds] at hnone ⊢
    rw [readLoop_succ_of_none rounds _ _ _ _ _ (by rwa [add_comm])]
    exact readLoop_of_outside _ _ _ _ _ _ (by omega)

theorem readLoop_overruns (hstart : startOffset < DIOSFS_BLOCKSIZE)
    (hblocks : ∀ block ≤ bytes / DIOSFS_BLOCKSIZE, (fileBlock fs inode block).isSome)
    (hlast : DIOSFS_BLOCKSIZE ≤ bytes → bytes % DIOSFS_BLOCKSIZE + startOffset < DIOSFS_BLOCKSIZE) :
    ∃ value, ∀ mem, (readLoop fs inode buf (bytes / DIOSFS_BLOCKSIZE + 1) 0 startOffset 0 bytes
      mem).memory (buf + bytes) = value := by
  obtain ⟨data, hdata⟩ := isSome_iff_exists.mp (hblocks 0 (Nat.zero_le _))
  by_cases hbytes : DIOSFS_BLOCKSIZE ≤ bytes
  · obtain ⟨rounds, hrounds, hsplit⟩ := exists_rounds hbytes
    have hothers : ∀ idx ≤ rounds, (fileBlock fs inode (1 + idx)).isSome := fun idx hidx ↦
      hblocks _ (by omega)
    obtain ⟨last, hlastData⟩ := isSome_iff_exists.mp (hothers rounds le_rfl)
    refine ⟨last (buf + bytes - (buf + (DIOSFS_BLOCKSIZE - startOffset) +
      rounds * DIOSFS_BLOCKSIZE)), fun mem ↦ ?_⟩
    obtain ⟨found, hfound, hbyte⟩ := @readLoop_last fs inode buf (buf + bytes) rounds 1
      (DIOSFS_BLOCKSIZE - startOffset) (bytes - (DIOSFS_BLOCKSIZE - startOffset))
      (transfer mem buf data) hothers (by omega) (by omega) (by omega)
    obtain rfl := some.inj (hfound.symm.trans hlastData)
    rw [readLoop_first hdata hbytes, hrounds, hbyte]
  · refine ⟨data bytes, fun mem ↦ ?_⟩
    have hone : bytes / DIOSFS_BLOCKSIZE = 0 := Nat.div_eq_of_lt (Nat.not_le.mp hbytes)
    simp only [hone, readLoop, hdata, transfer, Nat.add_zero]
    rw [if_pos (by omega), Nat.add_sub_cancel_left]

/-- **What a read leaves alone.** A read in the bounds of a regular file modifies no byte outside
its buffer exactly if it is of at least one block, and the block that it reads last, counted from the
start of the buffer, ends inside the buffer or makes it panic. -/
theorem read_frame_iff {vnode : Vnode} {offset bytes : ℕ} (htype : vnode.vnodeType = .file)
    (hfile : RegularFile fs (fs.inodes vnode.vnodeInodeNumber)) (hbytes : 1 ≤ bytes)
    (hend : offset + bytes ≤ (fs.inodes vnode.vnodeInodeNumber).size) (linkType : Option VnodeType)
    (buffer : ℕ) :
    (∀ memory position, position < buffer ∨ buffer + bytes ≤ position →
      (read fs linkType vnode offset buffer bytes memory).memory position = memory position) ↔
    DIOSFS_BLOCKSIZE ≤ bytes ∧
      (DIOSFS_BLOCKSIZE ≤ bytes % DIOSFS_BLOCKSIZE + offset % DIOSFS_BLOCKSIZE ∨
        fileBlock fs (fs.inodes vnode.vnodeInodeNumber) (bytes / DIOSFS_BLOCKSIZE) = none) := by
  have hpos : 0 < DIOSFS_BLOCKSIZE := by decide
  simp only [read_eq_readLoop htype hfile hbytes hend]
  constructor
  · intro hframe
    by_contra hnot
    have hwhole := Nat.div_mul_le_self bytes DIOSFS_BLOCKSIZE
    have hblocks : ∀ block ≤ bytes / DIOSFS_BLOCKSIZE,
        (fileBlock fs (fs.inodes vnode.vnodeInodeNumber) block).isSome := by
      intro block hblock
      rcases Nat.lt_or_eq_of_le hblock with hlt | rfl
      · apply hfile.stored
        have hnext := Nat.mul_le_mul_right DIOSFS_BLOCKSIZE hlt
        rw [Nat.succ_mul] at hnext
        omega
      · by_cases hlarge : DIOSFS_BLOCKSIZE ≤ bytes
        · exact isSome_iff_ne_none.mpr fun hnone ↦ hnot ⟨hlarge, .inr hnone⟩
        · apply hfile.stored
          rw [Nat.div_eq_of_lt (not_le.mp hlarge), zero_mul]
          omega
    obtain ⟨value, hvalue⟩ := readLoop_overruns (Nat.mod_lt offset hpos) hblocks
      fun hlarge ↦ not_le.mp fun hends ↦ hnot ⟨hlarge, .inl hends⟩
    -- The byte behind the buffer has a fixed value after the read, so it changes in some memory.
    have hone := (hvalue fun _ ↦ 0).symm.trans (hframe _ (buffer + bytes) (.inr le_rfl))
    have htwo := (hvalue fun _ ↦ 1).symm.trans (hframe _ (buffer + bytes) (.inr le_rfl))
    exact absurd (hone.symm.trans htwo) (by decide)
  · rintro ⟨hlarge, hlast⟩ memory position houtside
    exact readLoop_frame hlarge (hfile.stored 0 (by omega)) hlast houtside memory

/-- A disk with three data blocks, the first of sevens, and one file of a given size in the first
two of them. -/
def twoBlockFile (size : ℕ) : Context where
  superblock := ⟨1, 1, 1, 1⟩
  deviceMinor := 0
  numBlocks := 3
  inodeBitmap := fun _ ↦ false
  blockBitmap := fun _ ↦ false
  inodes := fun number ↦ { Inode.zero with
    inodeNumber := number
    type := typeCode .file
    size := size
    blockCount := 2
    blocks := (Vector.replicate NUM_BLOCKS_DIRECT 0).set 1 1 (by decide) }
  blocks := fun number _ ↦ if number = 0 then 7 else 0

def twoBlockVnode (size : ℕ) : Vnode := ⟨.diosfs, .file, 1, size⟩

theorem regularFile_twoBlockFile {size : ℕ} (hsize : size ≤ 2 * DIOSFS_BLOCKSIZE) :
    RegularFile (twoBlockFile size) ((twoBlockFile size).inodes 1) where
  type := rfl
  size_lt := by
    simp only [DIOSFS_BLOCKSIZE] at hsize
    show size < 2 ^ 32
    omega
  stored := by
    intro block hblock
    have hcases : block = 0 ∨ block = 1 := by
      simp only [DIOSFS_BLOCKSIZE, twoBlockFile] at hblock hsize
      omega
    rcases hcases with rfl | rfl <;> rfl

/-- A read of one and a half blocks from the middle of the first block on: the block that it reads last
ends with the buffer. -/
theorem read_frame_half :
    DIOSFS_BLOCKSIZE ≤ 1536 % DIOSFS_BLOCKSIZE + 512 % DIOSFS_BLOCKSIZE ∧
      ∀ memory position, position < 5000 ∨ 5000 + 1536 ≤ position →
        (read (twoBlockFile 2048) none (twoBlockVnode 2048) 512 5000 1536 memory).memory position =
          memory position :=
  ⟨by decide, (@read_frame_iff (twoBlockFile 2048) (twoBlockVnode 2048) 512 1536 rfl
    (regularFile_twoBlockFile le_rfl) (by decide) (by decide) none 5000).mpr (by decide)⟩

/-- A read of ten bytes writes a whole block. -/
theorem read_overruns :
    RegularFile (twoBlockFile 10) ((twoBlockFile 10).inodes (twoBlockVnode 10).vnodeInodeNumber) ∧
    0 + 10 ≤ ((twoBlockFile 10).inodes (twoBlockVnode 10).vnodeInodeNumber).size ∧
    ∃ memory, (read (twoBlockFile 10) none (twoBlockVnode 10) 0 5000 10 memory).memory 5010 ≠
      memory 5010 :=
  ⟨regularFile_twoBlockFile (by decide), by decide, fun _ ↦ 0, by decide⟩

end DionysOS.Filesystem.Diosfs
