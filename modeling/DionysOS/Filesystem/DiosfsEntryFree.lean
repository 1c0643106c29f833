import DionysOS.Filesystem.DiosfsDirectory
import DionysOS.Filesystem.DiosfsFreeing

/-!
# The file behind a directory entry that is removed

`diosfs_directory_entry_free` looks for the entry, deals with the file that it names, and takes the
entry out of the directory. Here are the first two. The search reads the blocks of the directory
one after the other and stops at the entry. The file loses its blocks and its inode, unless another
name is left, and unless the memory that the code takes for the entry says that it is no file. The
directory is left as it was, but for one block, which a page of garbage may go to.
-/

namespace DionysOS.Filesystem.Diosfs

open Foundation.ByteRecords Function Option List
open Vfs (VnodeType DIOSFS_BLOCKSIZE NUM_BLOCKS_DIRECT)

/-- A directory stores `entries`, and the one at `k` names a file of its own. -/
structure Situation (fs : Context) (number : ℕ) (entries : List Dirent) (k : ℕ) (entry : Dirent) :
    Prop where
  holds : Holds fs number entries
  blockCount : (fs.inodes number).blockCount = (entries.length + 6) / 7
  distinct : (entries.map Dirent.inodeNumber).Nodup
  getElem : entries[k]? = some entry
  type : entry.type = typeCode .file
  fileNumber : (fs.inodes entry.inodeNumber.toNat).inodeNumber = entry.inodeNumber.toNat
  fileOther : entry.inodeNumber.toNat ≠ number
  fileSound : SoundBlocks fs (fs.inodes entry.inodeNumber.toNat)
  fileApart : ∀ block ∈ directBlocks (fs.inodes number),
    block ∉ blocksOf fs.blocks (fs.inodes entry.inodeNumber.toNat)

/-- The removal of the file returns: the bits to clear are within reach of `diosfs_clear_bitmap`, and
the stray block is on the device. -/
def Survives (fs : Context) (file : Inode) : Prop :=
  Clearable (dataBlocks fs.blocks file) ∧ file.inodeNumber / 8 < PAGE_SIZE ∧
    strayBlock fs file.inodeNumber < fs.numBlocks

instance (fs : Context) (file : Inode) : Decidable (Survives fs file) :=
  instDecidableAnd

variable {garbage : Garbage} {fs next : Context} {number k fuel : ℕ} {entries : List Dirent}
  {entry : Dirent}

/-- The directory after the file was dealt with. `target` is the block that the page of garbage went
to, if there was one. -/
structure Dropped (garbage : Garbage) (fs next : Context) (number : ℕ) (target : Option ℕ) : Prop where
  numBlocks : next.numBlocks = fs.numBlocks
  inode : next.inodes number = fs.inodes number
  marked : ∀ block ∈ directBlocks (fs.inodes number),
    next.blockBitmap block = fs.blockBitmap block
  blocks : ∀ block ∈ directBlocks (fs.inodes number),
    next.blocks block = if target = some block then garbage.page else fs.blocks block

/-- The file's inode is removed, rather than kept for another name or left alone. -/
def Removes (garbage : Garbage) (fs : Context) (k : ℕ) (entry : Dirent) : Prop :=
  (k < 7 ∨ (garbage.entries k).type = typeCode .file) ∧
    (fs.inodes entry.inodeNumber.toNat).refcount ≤ 1

instance (garbage : Garbage) (fs : Context) (k : ℕ) (entry : Dirent) :
    Decidable (Removes garbage fs k entry) := instDecidableAnd

/-- The block that a page of garbage goes to while the file is dealt with. -/
def strayTarget (garbage : Garbage) (fs : Context) (k : ℕ) (entry : Dirent) : Option ℕ :=
  if Removes garbage fs k entry then
    some (strayBlock fs (fs.inodes entry.inodeNumber.toNat).inodeNumber)
  else none

theorem strayBlock_writeInode (fs : Context) (inode : Inode) (inodeNumber : ℕ) :
    strayBlock (writeInode fs inode) inodeNumber = strayBlock fs inodeNumber := rfl

theorem freeInodeAndMarkBitmap_eq (garbage : Garbage) (fs : Context) (inodeNumber : ℕ) :
    freeInodeAndMarkBitmap garbage fs inodeNumber =
      if inodeNumber / 8 < PAGE_SIZE ∧ strayBlock fs inodeNumber < fs.numBlocks then
        some { (writeInode fs { Inode.zero with inodeNumber := inodeNumber }).setBlock
            (strayBlock fs inodeNumber) garbage.page with
          inodeBitmap := cleared fs.inodeBitmap inodeNumber }
      else none := by
  by_cases hdev : strayBlock fs inodeNumber < fs.numBlocks
  · simp only [freeInodeAndMarkBitmap, writeBlockByNumber, strayBlock_writeInode,
      writeInode_numBlocks, clearBit_eq, hdev, if_true, and_true, bind_eq_bind, bind_some]
    split <;> rfl
  · simp [freeInodeAndMarkBitmap, writeBlockByNumber, strayBlock_writeInode, hdev]

/-- What freeing an inode should do to the disk: the inode is zeroed, its bit is cleared, and nothing
else changes. -/
structure FreesInode (fs : Context) (inodeNumber : ℕ) (after : Context) : Prop where
  inode : after.inodes inodeNumber = { Inode.zero with inodeNumber := inodeNumber }
  others : ∀ number ≠ inodeNumber, after.inodes number = fs.inodes number
  inodeBitmap : after.inodeBitmap = update fs.inodeBitmap inodeNumber false
  blocks : ∀ block, ∀ position < DIOSFS_BLOCKSIZE,
    after.blocks block position = fs.blocks block position
  blockBitmap : after.blockBitmap = fs.blockBitmap

/-- **Freeing an inode** does this exactly if the bit is in the first block of the bitmap, and the page
that was allocated happens to hold the data block that it is written to. -/
theorem freeInodeAndMarkBitmap_frees_iff (garbage : Garbage) {inodeNumber : ℕ}
    (hallocated : fs.inodeBitmap inodeNumber = true) :
    (∃ after, freeInodeAndMarkBitmap garbage fs inodeNumber = some after ∧
        FreesInode fs inodeNumber after) ↔
      inodeNumber < BITS_PER_BLOCK ∧ strayBlock fs inodeNumber < fs.numBlocks ∧
        ∀ position < DIOSFS_BLOCKSIZE,
          garbage.page position = fs.blocks (strayBlock fs inodeNumber) position := by
  rw [freeInodeAndMarkBitmap_eq]
  constructor
  · rintro ⟨after, hfree, hfrees⟩
    obtain ⟨hreach, hfree⟩ := ite_none_right_eq_some.mp hfree
    cases hfree
    refine ⟨?_, hreach.2, fun position hpos ↦ ?_⟩
    · by_contra hlarge
      have hbit := congrFun hfrees.inodeBitmap inodeNumber
      simp [cleared, hlarge, hallocated] at hbit
    · have hblock := hfrees.blocks (strayBlock fs inodeNumber) position hpos
      rwa [Context.setBlock_blocks, update_self] at hblock
  · rintro ⟨hfirst, hdev, hpage⟩
    have hbyte : inodeNumber / 8 < PAGE_SIZE := by
      simp only [BITS_PER_BLOCK, PAGE_SIZE, DIOSFS_BLOCKSIZE] at *
      omega
    refine ⟨_, if_pos ⟨hbyte, hdev⟩, update_self .., fun number hne ↦ update_of_ne hne .., ?_,
      fun block position hpos ↦ ?_, rfl⟩
    · funext bit
      by_cases hbit : bit = inodeNumber
      · simp [cleared, hbit, hfirst]
      · simp [cleared, hbit]
    · by_cases hblock : block = strayBlock fs inodeNumber
      · rw [hblock, ← hpage position hpos]
        exact congrFun (update_self ..) position
      · exact congrFun (update_of_ne hblock ..) position

theorem freeInodeAndMarkBitmap_frees_zeroPage :
    ∃ after, freeInodeAndMarkBitmap ⟨fun _ ↦ Dirent.ofBytes fun _ ↦ 0, fun _ ↦ 0⟩ oneBlockFile 0 =
      some after ∧ FreesInode oneBlockFile 0 after :=
  (freeInodeAndMarkBitmap_frees_iff _ rfl).mpr ⟨by decide, by decide, fun _ _ ↦ rfl⟩

/-- A page of ones goes to the data block 1. -/
theorem freeInodeAndMarkBitmap_stray :
    (freeInodeAndMarkBitmap ⟨fun _ ↦ Dirent.ofBytes fun _ ↦ 0, fun _ ↦ 1⟩ oneBlockFile 0).map
      (fun after ↦ (oneBlockFile.blocks 1 0, after.blocks 1 0)) = some (0, 1) := by
  decide

theorem removeFile_spec {inode : Inode} (hsound : SoundBlocks fs inode)
    (hnum : number ≠ inode.inodeNumber)
    (hapart : ∀ block ∈ directBlocks (fs.inodes number), block ∉ blocksOf fs.blocks inode) :
    if Survives fs inode then
      ∃ next, (removeFile garbage fs inode).map Prod.fst = some next ∧
        Dropped garbage fs next number (some (strayBlock fs inode.inodeNumber))
    else (removeFile garbage fs inode).map Prod.fst = none := by
  have hblocks := freeBlocksFromInode_eq hsound
  by_cases hclear : Clearable (dataBlocks fs.blocks inode)
  · rw [if_pos hclear] at hblocks
    let emptied : Inode := { inode with
      blockCount := inode.blockCount - (inode.blockCount - inodeCapacity inode)
      name := fun _ ↦ 0 }
    let written := writeInode (freed fs (dataBlocks fs.blocks inode)) emptied
    have hremove : (removeFile garbage fs inode).map Prod.fst =
        freeInodeAndMarkBitmap garbage written inode.inodeNumber := by
      simp only [removeFile, hblocks, bind_eq_bind, bind_some]
      cases freeInodeAndMarkBitmap garbage written inode.inodeNumber <;> rfl
    rw [hremove, freeInodeAndMarkBitmap_eq]
    by_cases hreach : inode.inodeNumber / 8 < PAGE_SIZE ∧
        strayBlock fs inode.inodeNumber < fs.numBlocks
    · rw [if_pos (⟨hclear, hreach⟩)]
      have hdata : ∀ block ∈ directBlocks (fs.inodes number), block ∉ dataBlocks fs.blocks inode :=
        fun block hblock hleaf ↦ hapart block hblock (dataBlocks_subset _ _ hleaf)
      refine ⟨_, if_pos hreach, rfl, ?_, fun block hblock ↦ ?_, fun block hblock ↦ ?_⟩
      · exact (update_of_ne hnum _ _).trans (update_of_ne hnum _ _)
      · exact freed_blockBitmap_of_notMem (hdata block hblock)
      · have hkept : written.blocks block = fs.blocks block :=
          freed_blocks_of_notMem (hdata block hblock)
        change update written.blocks (strayBlock fs inode.inodeNumber) garbage.page block = _
        rw [update_apply, hkept]
        simp only [some.injEq, eq_comm]
    · rw [if_neg fun hsurvives : Survives fs inode ↦ hreach hsurvives.2]
      exact if_neg hreach
  · rw [if_neg hclear] at hblocks
    rw [if_neg fun hsurvives : Survives fs inode ↦ hclear hsurvives.1, removeFile, hblocks]
    rfl

section

variable (hsit : Situation fs number entries k entry)
include hsit

theorem Situation.lt : k < entries.length :=
  (List.getElem?_eq_some_iff.mp hsit.getElem).1

theorem Situation.exists_block :
    ∃ block, (fs.inodes number).blocks[k / 7]? = some block ∧
      block ∈ directBlocks (fs.inodes number) ∧ block < fs.numBlocks ∧
      entryOf (fs.blocks block) (k % 7) = entry := by
  have hk := hsit.lt
  have hcount := hsit.blockCount
  obtain ⟨block, hblock, hmem, hdev⟩ := hsit.holds.stores.exists_block
    (show k / 7 < (fs.inodes number).blockCount by omega)
  refine ⟨block, hblock, hmem, hdev, ?_⟩
  have hstored := hsit.holds.stores.stored k hk
  rw [entryAt, hblock, hsit.getElem, map_some] at hstored
  exact some.inj hstored

theorem Situation.freeTarget_eq {buf : Bytes} (hbuf : entryOf buf (k % 7) = entry) :
    freeTarget garbage fuel fs buf k =
      if k < 7 ∨ (garbage.entries k).type = typeCode .file then
        dropReference garbage fs (fs.inodes entry.inodeNumber.toNat)
      else some fs := by
  have hindexed : (indexed garbage buf k).type = typeCode .file ↔
      k < 7 ∨ (garbage.entries k).type = typeCode .file := by
    rw [indexed, maxFilesInDirentBlock_eq]
    by_cases hfirst : k < 7
    · rw [Nat.mod_eq_of_lt hfirst] at hbuf
      simp [hfirst, hbuf, hsit.type]
    · simp [hfirst]
  have htype : ¬entry.type = typeCode .directory := by
    rw [hsit.type]
    decide
  simp only [freeTarget, maxFilesInDirentBlock_eq, hbuf, htype, if_false, hindexed]

theorem Situation.freeTarget_spec {buf : Bytes} (hbuf : entryOf buf (k % 7) = entry) :
    if Removes garbage fs k entry → Survives fs (fs.inodes entry.inodeNumber.toNat) then
      ∃ next, freeTarget garbage fuel fs buf k = some next ∧
        Dropped garbage fs next number (strayTarget garbage fs k entry)
    else freeTarget garbage fuel fs buf k = none := by
  have hremove := @removeFile_spec garbage fs number _ hsit.fileSound
    (by rw [hsit.fileNumber]; exact hsit.fileOther.symm) hsit.fileApart
  rw [hsit.freeTarget_eq hbuf, strayTarget]
  by_cases hseen : k < 7 ∨ (garbage.entries k).type = typeCode .file
  · rw [if_pos hseen, dropReference]
    by_cases hlast : (fs.inodes entry.inodeNumber.toNat).refcount ≤ 1
    · have hremoves : Removes garbage fs k entry := ⟨hseen, hlast⟩
      rw [if_pos hlast, if_pos hremoves]
      simpa only [hremoves, true_imp_iff] using hremove
    · have hkeeps : ¬Removes garbage fs k entry := fun hremoves ↦ hlast hremoves.2
      rw [if_neg hlast, if_neg hkeeps, if_pos fun hremoves ↦ absurd hremoves hkeeps]
      refine ⟨_, rfl, rfl, update_of_ne ?_ _ _, fun _ _ ↦ rfl, fun _ _ ↦ rfl⟩
      exact fun hsame ↦ hsit.fileOther (hsame.trans hsit.fileNumber).symm
  · have hkeeps : ¬Removes garbage fs k entry := fun hremoves ↦ hseen hremoves.1
    rw [if_neg hseen, if_neg hkeeps, if_pos fun hremoves ↦ absurd hremoves hkeeps]
    exact ⟨fs, rfl, rfl, rfl, fun _ _ ↦ rfl, fun _ _ ↦ rfl⟩

end

theorem Situation.entryFreeLoop_eq (hsit : Situation fs number entries k entry) {block : ℕ}
    (hblock : (fs.inodes number).blocks[k / 7]? = some block) :
    ∀ (left i : ℕ) (buf : Bytes), left + i = entries.length → i ≤ k →
      (i % 7 ≠ 0 → ∀ other, (fs.inodes number).blocks[i / 7]? = some other →
        buf = fs.blocks other) →
      entryFreeLoop garbage fuel fs (fs.inodes number) entry.inodeNumber.toNat left i buf =
        (freeTarget garbage fuel fs (fs.blocks block) k).bind fun next ↦
          (takeOut next (fs.inodes number) (fs.blocks block) k).map some
  | 0, i, buf, hleft, hi, _ => by
      have hk := hsit.lt
      omega
  | left + 1, i, buf, hleft, hi, hbuf => by
      have hcount := hsit.blockCount
      obtain ⟨cur, hcur, -, hdev⟩ := hsit.holds.stores.exists_block
        (show i / 7 < (fs.inodes number).blockCount by omega)
      have hload : loadEntries fs (fs.inodes number) i buf = some (fs.blocks cur) := by
        rw [loadEntries, maxFilesInDirentBlock_eq]
        split
        · simp [hcur, readBlockByNumber, hdev]
        · rename_i hin
          rw [hbuf hin cur hcur]
      have hstored := hsit.holds.stores.stored i (by omega)
      rw [entryAt, hcur, map_some] at hstored
      simp only [entryFreeLoop, hload, bind_eq_bind, bind_some]
      rw [maxFilesInDirentBlock_eq]
      rcases Nat.lt_or_eq_of_le hi with hlt | rfl
      · -- the entries before have other inode numbers
        have hother : (entryOf (fs.blocks cur) (i % 7)).inodeNumber.toNat ≠
            entry.inodeNumber.toNat := by
          intro hsame
          have hindices := (getElem?_inj (by simp; omega) hsit.distinct).mp
            (show (entries.map Dirent.inodeNumber)[i]? = (entries.map Dirent.inodeNumber)[k]? by
              rw [getElem?_map, getElem?_map, ← hstored, hsit.getElem,
                map_some, map_some, BitVec.eq_of_toNat_eq hsame])
          omega
        rw [if_neg hother]
        refine hsit.entryFreeLoop_eq hblock left (i + 1) _ (by omega) (by omega) ?_
        intro hin other hnext
        rw [show (i + 1) / 7 = i / 7 by omega, hcur] at hnext
        rw [some.inj hnext]
      · rw [hsit.getElem] at hstored
        obtain rfl : cur = block := some.inj (hcur.symm.trans hblock)
        rw [if_pos (by rw [some.inj hstored])]
        simp only [map_eq_bind, comp_def]

theorem Situation.directoryEntryFree_eq (hsit : Situation fs number entries k entry)
    {target : Option Dirent} {inode : Inode}
    (hpar : target.elim inode.parentInodeNumber (·.parentInodeNumber.toNat) = number)
    (htarget : target.elim inode.inodeNumber (·.inodeNumber.toNat) = entry.inodeNumber.toNat)
    {block : ℕ} (hblock : (fs.inodes number).blocks[k / 7]? = some block) :
    directoryEntryFree garbage fuel fs target inode =
      (freeTarget garbage fuel fs (fs.blocks block) k).bind fun next ↦
        (takeOut next (fs.inodes number) (fs.blocks block) k).map some := by
  rw [directoryEntryFree, hpar, htarget, hsit.holds.stores.size]
  exact hsit.entryFreeLoop_eq hblock _ 0 _ rfl (Nat.zero_le k) (by simp)

end DionysOS.Filesystem.Diosfs
