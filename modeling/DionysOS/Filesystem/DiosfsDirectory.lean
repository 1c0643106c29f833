import DionysOS.Filesystem.DiosfsBlocks

/-!
# What a diosfs directory stores

`Holds fs number entries` says that the directory stores these entries: entry `i` lies in slot
`i % 7` of block `blocks[i / 7]`, and the blocks are its own. A listing of such a directory returns
the entries, and `diosfs_write_dirent` appends one where the directory has the block for it, or no
block at all. `Extends` is what the growth of a directory leaves alone.
-/

namespace DionysOS.Filesystem.Diosfs

open Foundation.ByteRecords List Function
open Vfs (DIOSFS_BLOCKSIZE NUM_BLOCKS_DIRECT)

/-- The entry with an index in the blocks of a directory. -/
def entryAt (disk : ℕ → Bytes) (inode : Inode) (index : ℕ) : Option Dirent :=
  inode.blocks[index / 7]?.map fun block ↦ entryOf (disk block) (index % 7)

/-- The blocks of the inode, which are marked in the bitmap and pairwise distinct, store `entries`. -/
structure Stores (fs : Context) (inode : Inode) (entries : List Dirent) : Prop where
  size : inode.size = entries.length
  blockCount_le : inode.blockCount ≤ 10
  length_le : entries.length ≤ 7 * inode.blockCount
  onDevice : ∀ block ∈ inode.blocks.toList, block < fs.numBlocks
  nodup : (directBlocks inode).Nodup
  marked : ∀ block ∈ directBlocks inode, fs.blockBitmap block = true
  stored : ∀ index < entries.length, entryAt fs.blocks inode index = entries[index]?

/-- The inode with this number is a directory, and it stores `entries`. -/
structure Holds (fs : Context) (number : ℕ) (entries : List Dirent) : Prop where
  inodeNumber : (fs.inodes number).inodeNumber = number
  type : (fs.inodes number).type = typeCode .directory
  stores : Stores fs (fs.inodes number) entries

variable {fs : Context} {inode : Inode} {number num : ℕ} {entries : List Dirent}

variable {index idx block childrenSize other : ℕ}

theorem directBlocks_getElem? (hidx : idx < inode.blockCount) :
    (directBlocks inode)[idx]? = inode.blocks[idx]? := by
  rw [directBlocks, getElem?_take_of_lt hidx, Vector.getElem?_toList]

section

variable (hstores : Stores fs inode entries)
include hstores

theorem Stores.exists_block (hidx : idx < inode.blockCount) :
    ∃ block, inode.blocks[idx]? = some block ∧ block ∈ directBlocks inode ∧
      block < fs.numBlocks := by
  have hcount := hstores.blockCount_le
  have hlt : idx < NUM_BLOCKS_DIRECT := by
    simp only [NUM_BLOCKS_DIRECT]
    omega
  have hblock : inode.blocks[idx]? = some inode.blocks[idx] := Vector.getElem?_eq_getElem hlt
  refine ⟨_, hblock, mem_of_getElem? ((directBlocks_getElem? hidx).trans hblock), ?_⟩
  exact hstores.onDevice _ (by simp)

theorem Stores.index_unique {first second : ℕ} (hfirst : first < inode.blockCount)
    (hsecond : second < inode.blockCount) (hfirstBlock : inode.blocks[first]? = some block)
    (hsecondBlock : inode.blocks[second]? = some block) : first = second := by
  rw [← directBlocks_getElem? hfirst] at hfirstBlock
  rw [← directBlocks_getElem? hsecond] at hsecondBlock
  obtain ⟨hlt, -⟩ := List.getElem?_eq_some_iff.mp hfirstBlock
  exact (List.getElem?_inj hlt hstores.nodup).mp (hfirstBlock.trans hsecondBlock.symm)

theorem Stores.congr {other : Context} (hdevices : other.numBlocks = fs.numBlocks)
    (hmarked : ∀ block ∈ directBlocks inode, other.blockBitmap block = true)
    (hblocks : ∀ block ∈ directBlocks inode, other.blocks block = fs.blocks block) :
    Stores other inode entries := by
  refine ⟨hstores.size, hstores.blockCount_le, hstores.length_le,
    fun block hblock ↦ hdevices ▸ hstores.onDevice block hblock, hstores.nodup, hmarked,
    fun idx hidx ↦ ?_⟩
  have hlen := hstores.length_le
  obtain ⟨block, hblock, hmem, -⟩ :=
    hstores.exists_block (show idx / 7 < inode.blockCount by omega)
  rw [← hstores.stored idx hidx, entryAt, entryAt, hblock, Option.map_some, Option.map_some,
    hblocks block hmem]

end

def addBlock (inode : Inode) (hcount : inode.blockCount < NUM_BLOCKS_DIRECT) (fresh : ℕ) : Inode :=
  { inode with
    blocks := inode.blocks.set inode.blockCount fresh hcount
    blockCount := inode.blockCount + 1 }

theorem directBlocks_addBlock (hcount : inode.blockCount < NUM_BLOCKS_DIRECT) (fresh : ℕ) :
    directBlocks (addBlock inode hcount fresh) = directBlocks inode ++ [fresh] := by
  rw [directBlocks, directBlocks, addBlock, Vector.toList_set, take_add_one,
    take_set_of_le le_rfl, getElem?_set_self (by simpa using hcount)]
  rfl

theorem Stores.addBlock (hstores : Stores fs inode entries)
    (hcount : inode.blockCount < NUM_BLOCKS_DIRECT) {fresh : ℕ}
    (hclear : fs.blockBitmap fresh = false) (hdev : fresh < fs.numBlocks) :
    Stores (fs.setBlockBit fresh true) (addBlock inode hcount fresh) entries := by
  have hlen := hstores.length_le
  have hnot : fresh ∉ directBlocks inode := by
    intro hmem
    rw [hstores.marked fresh hmem] at hclear
    cases hclear
  refine ⟨hstores.size, hcount, by simp only [Diosfs.addBlock]; omega, fun block hblock ↦ ?_, ?_,
    fun block hblock ↦ ?_, fun idx hidx ↦ ?_⟩
  · simp only [Diosfs.addBlock, Vector.toList_set] at hblock
    rcases mem_or_eq_of_mem_set hblock with hblock | rfl
    · exact hstores.onDevice block hblock
    · exact hdev
  · rw [directBlocks_addBlock, ← concat_eq_append]
    exact hstores.nodup.concat hnot
  · rw [directBlocks_addBlock, mem_append, mem_singleton] at hblock
    simp only [Context.setBlockBit_blockBitmap, update_apply]
    rcases hblock with hblock | rfl
    · rw [hstores.marked block hblock, ite_self]
    · rw [if_pos rfl]
  · have hne : inode.blockCount ≠ idx / 7 := by omega
    rw [← hstores.stored idx hidx]
    simp only [entryAt, Diosfs.addBlock, Context.setBlockBit_blocks, Vector.getElem?_set_ne _ hne]

theorem readEntries_eq (fs : Context) :
    ∀ (addresses : List ℕ) (left : ℕ), left < 7 * addresses.length →
      (∀ block ∈ addresses, block < fs.numBlocks) →
      readEntries fs addresses left = some ((range left).map fun idx ↦
        entryOf (fs.blocks (addresses.getD (idx / 7) 0)) (idx % 7))
  | [], left, hleft, _ => by simp at hleft
  | addr :: rest, left, hleft, hdev => by
      have hblock : readBlockByNumber fs addr = some (fs.blocks addr) :=
        if_pos (hdev addr mem_cons_self)
      have hfirst : ∀ count ≤ 7, blockEntries (fs.blocks addr) count =
          (range count).map fun idx ↦
            entryOf (fs.blocks ((addr :: rest).getD (idx / 7) 0)) (idx % 7) := by
        intro count hcount
        refine map_congr_left fun idx hidx ↦ ?_
        have hidx := mem_range.mp hidx
        rw [Nat.div_eq_of_lt (by omega), Nat.mod_eq_of_lt (by omega), getD_cons_zero]
      by_cases hshort : left < DIOSFS_MAX_FILES_IN_DIRENT_BLOCK
      · simp only [readEntries, hblock, Option.bind_eq_bind, Option.bind_some, if_pos hshort]
        rw [maxFilesInDirentBlock_eq] at hshort
        rw [hfirst left (by omega)]
      · simp only [readEntries, hblock, Option.bind_eq_bind, Option.bind_some, if_neg hshort]
        rw [maxFilesInDirentBlock_eq] at hshort ⊢
        have hrest := readEntries_eq fs rest (left - 7)
          (by rw [length_cons] at hleft; omega)
          (fun block hmem ↦ hdev block (mem_cons_of_mem _ hmem))
        rw [hrest, Option.bind_some, hfirst 7 le_rfl]
        have hsplit : range left = range 7 ++ (range (left - 7)).map (7 + ·) := by
          rw [← range_add, Nat.add_sub_cancel' (by omega)]
        rw [hsplit, map_append, map_map]
        congr 2
        refine map_congr_left fun idx _ ↦ ?_
        rw [comp_apply, Nat.add_div_left _ (by omega), Nat.add_mod_left, getD_cons_succ]

/-- The entries in the slots of a directory, up to its size. -/
def listing (disk : ℕ → Bytes) (inode : Inode) : List Dirent :=
  (range inode.size).map fun index ↦
    entryOf (disk (inode.blocks.toList.getD (index / 7) 0)) (index % 7)

@[simp]
theorem length_listing (disk : ℕ → Bytes) (inode : Inode) :
    (listing disk inode).length = inode.size := by
  simp [listing]

theorem getElem?_listing {disk : ℕ → Bytes} (hsize : inode.size < 70)
    (hidx : index < inode.size) : (listing disk inode)[index]? = entryAt disk inode index := by
  have hlt : index / 7 < NUM_BLOCKS_DIRECT := by
    simp only [NUM_BLOCKS_DIRECT]
    omega
  rw [listing, getElem?_map, getElem?_range hidx, Option.map_some, entryAt,
    getD_eq_getElem?_getD, Vector.getElem?_toList, Vector.getElem?_eq_getElem hlt,
    Option.map_some, Option.getD_some]

theorem getDirectoryEntries_eq (htype : (fs.inodes num).type = typeCode .directory)
    (hsize : (fs.inodes num).size < 70)
    (hdev : ∀ block ∈ (fs.inodes num).blocks.toList, block < fs.numBlocks)
    (hblocks : (fs.inodes num).blockCount * DIOSFS_BLOCKSIZE ≤ childrenSize)
    (hchildren : (fs.inodes num).size * DIRECTORY_ENTRY_SIZE ≤ childrenSize) :
    getDirectoryEntries fs num childrenSize =
      some (.ok (listing fs.blocks (fs.inodes num))) := by
  rw [getDirectoryEntries, if_neg (not_not.mpr htype), if_neg (not_lt.mpr hblocks),
    if_neg (not_lt.mpr hchildren), readEntries_eq fs _ _ (by rwa [Vector.length_toList]) hdev]
  rfl

theorem Stores.listing_eq (hstores : Stores fs inode entries) (hlen : entries.length < 70) :
    listing fs.blocks inode = entries := by
  have hsize := hstores.size
  refine ext_getElem? fun idx ↦ ?_
  by_cases hidx : idx < entries.length
  · rw [getElem?_listing (by omega) (by omega), hstores.stored idx hidx]
  · rw [getElem?_eq_none (by rw [length_listing]; omega), getElem?_eq_none (by omega)]

def listedNumbers (fs : Context) (number childrenSize : ℕ) : Option (List ℕ) :=
  match getDirectoryEntries fs number childrenSize with
  | some (.ok entries) => some (entries.map fun entry ↦ entry.inodeNumber.toNat)
  | _ => none

theorem listedNumbers_eq_some {numbers : List ℕ}
    (hlisted : listedNumbers fs num childrenSize = some numbers) :
    ∃ listed, getDirectoryEntries fs num childrenSize = some (.ok listed) ∧
      listed.map (fun entry ↦ entry.inodeNumber.toNat) = numbers := by
  rw [listedNumbers] at hlisted
  split at hlisted
  · rename_i listed hret
    exact ⟨listed, hret, Option.some.inj hlisted⟩
  · cases hlisted

section

variable (hstores : Stores fs inode entries)
include hstores

theorem Stores.entryAt_setEntry
    (hidx : idx / 7 < inode.blockCount) (hblock : inode.blocks[idx / 7]? = some block)
    (entry : Dirent) (hother : other / 7 < inode.blockCount) :
    entryAt (update fs.blocks block (setEntry (fs.blocks block) (idx % 7) entry)) inode
        other = if other = idx then some entry else entryAt fs.blocks inode other := by
  split
  · subst other
    rw [entryAt, hblock, Option.map_some, update_self, entryOf_setEntry_self]
  · rename_i hne
    obtain ⟨otherBlock, hotherBlock, -⟩ := hstores.exists_block hother
    rw [entryAt, entryAt, hotherBlock, Option.map_some, Option.map_some]
    by_cases hsame : otherBlock = block
    · -- the other entry lies in the block that is written, in another slot of it
      subst hsame
      have hindices := hstores.index_unique hother hidx hotherBlock hblock
      rw [update_self, entryOf_setEntry_of_ne (by omega)]
    · rw [update_of_ne hsame]

theorem Stores.append (hroom : entries.length < 7 * inode.blockCount) (entry : Dirent) :
    ∃ block, inode.blocks[entries.length / 7]? = some block ∧ block ∈ directBlocks inode ∧
      block < fs.numBlocks ∧
      Stores (fs.setBlock block (setEntry (fs.blocks block) (entries.length % 7) entry))
        { inode with size := inode.size + 1 } (entries ++ [entry]) := by
  have hidx : entries.length / 7 < inode.blockCount := by omega
  obtain ⟨block, hblock, hmem, hdev⟩ := hstores.exists_block hidx
  refine ⟨block, hblock, hmem, hdev, ?_⟩
  refine ⟨by simp [hstores.size], hstores.blockCount_le,
    by simp only [length_append, length_singleton]; omega, hstores.onDevice,
    hstores.nodup, hstores.marked, fun other hother ↦ ?_⟩
  rw [length_append, length_singleton] at hother
  refine (hstores.entryAt_setEntry hidx hblock entry (by omega)).trans ?_
  split
  · subst other
    simp
  · have hlt : other < entries.length := by omega
    rw [hstores.stored other hlt, getElem?_append_left hlt]

theorem Stores.set (hidx : idx < entries.length) (entry : Dirent) :
    ∃ block, inode.blocks[idx / 7]? = some block ∧ block ∈ directBlocks inode ∧
      block < fs.numBlocks ∧
      Stores (fs.setBlock block (setEntry (fs.blocks block) (idx % 7) entry)) inode
        (entries.set idx entry) := by
  have hlen := hstores.length_le
  have hcount : idx / 7 < inode.blockCount := by omega
  obtain ⟨block, hblock, hmem, hdev⟩ := hstores.exists_block hcount
  refine ⟨block, hblock, hmem, hdev, ?_⟩
  refine ⟨by rw [length_set, hstores.size], hstores.blockCount_le,
    by rwa [length_set], hstores.onDevice, hstores.nodup, hstores.marked, fun other hother ↦ ?_⟩
  rw [length_set] at hother
  refine (hstores.entryAt_setEntry hcount hblock entry (by omega)).trans ?_
  split
  · subst other
    rw [getElem?_set_self hidx]
  · rename_i hne
    rw [hstores.stored other hother, getElem?_set_ne (Ne.symm hne)]

end

/-- The scan of a bitmap finds a clear bit below `bound`. -/
def ScanFinds (bits : ℕ → Bool) (limit bound : ℕ) : Prop :=
  (firstFree bits limit 0).any (· < bound) = true

instance (bits : ℕ → Bool) (limit bound : ℕ) : Decidable (ScanFinds bits limit bound) :=
  inferInstanceAs (Decidable (_ = true))

/-- A block can be allocated, and it is on the device. -/
def CanAllocateBlock (fs : Context) : Prop :=
  fs.superblock.blockBitmapPointersStart ≤ fs.superblock.blockBitmapSize ∧
    ScanFinds fs.blockBitmap (fs.superblock.blockBitmapPointersStart * BITS_PER_BLOCK) fs.numBlocks

/-- An inode can be allocated, and its number fits into 16 bits. -/
def CanAllocateInode (fs : Context) : Prop :=
  fs.superblock.inodeBitmapSize * DIOSFS_BLOCKSIZE ≤ PAGE_SIZE * 16 ∧
    ScanFinds fs.inodeBitmap (fs.superblock.inodeBitmapSize * BITS_PER_BLOCK) (2 ^ 16)

theorem ScanFinds.exists {bits : ℕ → Bool} {limit bound : ℕ} (hfinds : ScanFinds bits limit bound) :
    ∃ found, firstFree bits limit 0 = some found ∧ bits found = false ∧ found < bound := by
  rw [ScanFinds] at hfinds
  cases hfound : firstFree bits limit 0 with
  | none => simp [hfound] at hfinds
  | some found =>
      rw [hfound, Option.any_some, decide_eq_true_eq] at hfinds
      exact ⟨found, rfl, (firstFree_eq_some hfound).1, hfinds⟩

theorem getFreeBlockAndMarkBitmap_spec (hcan : CanAllocateBlock fs) :
    ∃ block, getFreeBlockAndMarkBitmap fs = some (block, fs.setBlockBit block true) ∧
      fs.blockBitmap block = false ∧ block < fs.numBlocks := by
  obtain ⟨block, hfound, hclear, hdev⟩ := hcan.2.exists
  refine ⟨block, ?_, hclear, hdev⟩
  rw [getFreeBlockAndMarkBitmap, if_neg (not_lt.mpr hcan.1), hfound]
  rfl

theorem getFreeInodeAndMarkBitmap_spec (hcan : CanAllocateInode fs) :
    ∃ num, getFreeInodeAndMarkBitmap fs =
        some ({ Inode.zero with inodeNumber := num },
          fs.setInodeBit (num % BITS_PER_BLOCK) true) ∧
      fs.inodeBitmap num = false ∧ num < 2 ^ 16 := by
  obtain ⟨num, hfound, hclear, hfits⟩ := hcan.2.exists
  refine ⟨num, ?_, hclear, hfits⟩
  rw [getFreeInodeAndMarkBitmap, if_neg (not_lt.mpr hcan.1), hfound]
  simpa using hfits

/-- What growth of the directory `number` leaves alone: marks and live inodes stay, and a block that
was marked and is none of the directory's keeps its contents. -/
structure Extends (number : ℕ) (before after : Context) : Prop where
  marked : ∀ block, before.blockBitmap block = true → after.blockBitmap block = true
  live : ∀ other, before.inodeBitmap other = true → after.inodeBitmap other = true
  inodes : ∀ other, other ≠ number → before.inodeBitmap other = true →
    after.inodes other = before.inodes other
  own : ∀ block ∈ directBlocks (after.inodes number),
    block ∈ directBlocks (before.inodes number) ∨ before.blockBitmap block = false
  blocks : ∀ block, before.blockBitmap block = true →
    block ∉ directBlocks (before.inodes number) → after.blocks block = before.blocks block

theorem Extends.refl (num : ℕ) (fs : Context) : Extends num fs fs :=
  ⟨fun _ h ↦ h, fun _ h ↦ h, fun _ _ _ ↦ rfl, fun _ h ↦ .inl h, fun _ _ _ ↦ rfl⟩

theorem Extends.trans {first second third : Context} (hfirst : Extends num first second)
    (hsecond : Extends num second third) : Extends num first third where
  marked block hmarked := hsecond.marked block (hfirst.marked block hmarked)
  live other hlive := hsecond.live other (hfirst.live other hlive)
  inodes other hother hlive := by
    rw [hsecond.inodes other hother (hfirst.live other hlive), hfirst.inodes other hother hlive]
  own block hblock := by
    rcases hsecond.own block hblock with hown | hclear
    · exact hfirst.own block hown
    · refine .inr (Bool.eq_false_iff.mpr fun hmarked ↦ ?_)
      rw [hfirst.marked block hmarked] at hclear
      cases hclear
  blocks block hmarked hother := by
    have hstill : block ∉ directBlocks (second.inodes num) := by
      intro hown
      rcases hfirst.own block hown with hown | hclear
      · exact hother hown
      · rw [hmarked] at hclear
        cases hclear
    rw [hsecond.blocks block (hfirst.marked block hmarked) hstill,
      hfirst.blocks block hmarked hother]

theorem Holds.of_extends {after : Context} (hholds : Holds fs other entries)
    (hextends : Extends num fs after) (hdevices : after.numBlocks = fs.numBlocks)
    (hother : other ≠ num) (hlive : fs.inodeBitmap other = true)
    (hapart : ∀ block ∈ directBlocks (fs.inodes other), block ∉ directBlocks (fs.inodes num)) :
    Holds after other entries := by
  have hsame := hextends.inodes other hother hlive
  refine ⟨by rw [hsame, hholds.inodeNumber], by rw [hsame, hholds.type], hsame ▸ ?_⟩
  exact hholds.stores.congr hdevices
    (fun block hblock ↦ hextends.marked block (hholds.stores.marked block hblock))
    (fun block hblock ↦ hextends.blocks block (hholds.stores.marked block hblock)
      (hapart block hblock))

theorem Holds.writeInode_of_ne (hholds : Holds fs number entries) {inode : Inode}
    (hne : number ≠ inode.inodeNumber) (bit : ℕ) :
    Holds (writeInode (fs.setInodeBit bit true) inode) number entries := by
  have hsame : (writeInode (fs.setInodeBit bit true) inode).inodes number = fs.inodes number :=
    update_of_ne hne _ _
  refine ⟨by rw [hsame, hholds.inodeNumber], by rw [hsame, hholds.type], hsame ▸ ?_⟩
  exact hholds.stores.congr rfl hholds.stores.marked fun _ _ ↦ rfl

/-- The directory has a block for its next entry, or it has none at all. -/
def HasRoom (inode : Inode) : Prop := inode.size < 7 * max inode.blockCount 1

theorem allocateDirentBlock_spec (hstores : Stores fs inode entries) (hroom : HasRoom inode)
    (hcan : inode.blockCount = 0 → CanAllocateBlock fs) :
    ∃ marked grown, allocateDirentBlock fs inode = some (marked, grown) ∧
      Stores marked grown entries ∧ entries.length < 7 * grown.blockCount ∧
      grown.inodeNumber = inode.inodeNumber ∧ grown.type = inode.type ∧
      marked.numBlocks = fs.numBlocks ∧ marked.inodeBitmap = fs.inodeBitmap ∧
      marked.inodes = fs.inodes ∧ marked.blocks = fs.blocks ∧
      (∀ block, fs.blockBitmap block = true → marked.blockBitmap block = true) ∧
      ∀ block ∈ directBlocks grown, block ∈ directBlocks inode ∨ fs.blockBitmap block = false := by
  have hsize := hstores.size
  rw [HasRoom, hsize] at hroom
  rw [allocateDirentBlock, maxFilesInDirentBlock_eq, hsize]
  by_cases hempty : inode.blockCount = 0
  · obtain ⟨block, hblock, hclear, hdev⟩ := getFreeBlockAndMarkBitmap_spec (hcan hempty)
    have hnil : entries = [] := eq_nil_of_length_eq_zero (by
      have hlen := hstores.length_le
      omega)
    subst hnil
    have hcount : inode.blockCount < NUM_BLOCKS_DIRECT := by rw [hempty]; decide
    refine ⟨fs.setBlockBit block true, addBlock inode hcount block, ?_,
      hstores.addBlock hcount hclear hdev, by simp [addBlock], rfl, rfl, rfl, rfl, rfl, rfl,
      fun other hother ↦ ?_, fun other hother ↦ ?_⟩
    · rw [if_pos (.inr hempty), hblock]
      simp [addBlock, hempty, hsize, NUM_BLOCKS_DIRECT]
    · simp only [Context.setBlockBit_blockBitmap, update_apply, hother, ite_self]
    · rw [directBlocks_addBlock, mem_append, mem_singleton] at hother
      rcases hother with hother | rfl
      · exact .inl hother
      · exact .inr hclear
  · have hfull : ¬((entries.length % 7 = 0 ∧ inode.blockCount < entries.length / 7) ∨
        inode.blockCount = 0) := by omega
    rw [if_neg hfull]
    exact ⟨fs, inode, rfl, hstores, by omega, rfl, rfl, rfl, rfl, rfl, rfl, fun _ h ↦ h,
      fun _ h ↦ .inl h⟩

theorem writeInode_self (hsame : fs.inodes inode.inodeNumber = inode) : writeInode fs inode = fs := by
  have hupdate : update fs.inodes inode.inodeNumber inode = fs.inodes := by
    rw [← hsame, update_eq_self_iff, hsame, hsame]
  rw [writeInode, hupdate]

theorem writeDirent_spec (hholds : Holds fs number entries) (hroom : HasRoom (fs.inodes number))
    (hcan : (fs.inodes number).blockCount = 0 → CanAllocateBlock fs) {read : Inode}
    (hread : read.inodeNumber = number) (hsize : read.size ≠ DIOSFS_MAX_FILES_IN_DIRECTORY)
    (entry : Dirent) :
    ∃ next, writeDirent fs read entry = some (.ok (next, next.inodes number)) ∧
      Holds next number (entries ++ [entry]) ∧ Extends number fs next := by
  obtain ⟨marked, grown, hallocate, hstores, hlen, hnum, htype, hdevices, hlive, hinodes, hdisk,
    hmarked, hown⟩ := allocateDirentBlock_spec hholds.stores hroom hcan
  obtain ⟨block, hblock, hmem, hdev, happended⟩ := hstores.append hlen entry
  have hgrown : grown.inodeNumber = number := hnum.trans hholds.inodeNumber
  subst hread
  let buf := setEntry (marked.blocks block) (entries.length % 7) entry
  let longer : Inode := { grown with size := grown.size + 1 }
  have hlonger : (writeInode (marked.setBlock block buf) longer).inodes read.inodeNumber =
      longer := by
    rw [writeInode_inodes, ← hgrown]
    exact update_self ..
  refine ⟨writeInode (marked.setBlock block buf) longer, ?_, ⟨?_, ?_, ?_⟩, ?_⟩
  · rw [hlonger]
    simp only [writeDirent, if_neg hsize, hallocate, maxFilesInDirentBlock_eq, hholds.stores.size,
      Option.bind_eq_bind, Option.bind_some, hblock, readBlockByNumber, if_pos hdev,
      writeBlockByNumber]
    rfl
  · rw [hlonger]
    exact hgrown
  · rw [hlonger]
    exact htype.trans hholds.type
  · rw [hlonger]
    exact { happended with }
  · refine ⟨hmarked, fun other hother ↦ ?_, fun other hother _ ↦ ?_,
      fun other hother ↦ ?_, fun other hother hnot ↦ ?_⟩
    · rwa [writeInode_inodeBitmap, Context.setBlock_inodeBitmap, hlive]
    · rw [writeInode_inodes, update_of_ne (by rwa [← hgrown] at hother),
        Context.setBlock_inodes, hinodes]
    · rw [hlonger] at hother
      exact hown other hother
    · rw [writeInode_blocks, Context.setBlock_blocks, update_of_ne, hdisk]
      rintro rfl
      rcases hown other hmem with hmem | hclear
      · exact hnot hmem
      · rw [hother] at hclear
        cases hclear

end DionysOS.Filesystem.Diosfs
