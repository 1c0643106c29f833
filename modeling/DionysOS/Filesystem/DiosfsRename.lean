import DionysOS.Filesystem.DiosfsDirectory
import Mathlib.Data.List.TakeWhile

/-!
# Renaming in diosfs

`diosfs_rename` writes the new name into the inode, and then has
`diosfs_find_directory_entry_and_update` bring the entry in the parent's directory up to date: not only
the name, but also the size, which is the inode's. `rename_spec` says what the directories store
afterwards.
-/

namespace DionysOS.Filesystem.Diosfs

open Foundation.ByteRecords List Function Option
open Vfs (ROOT_INODE)

def CString.ofField (field : NameField) : CString where
  chars := (ofFn field).takeWhile (· ≠ 0)
  zero_notMem hmem := by simpa using mem_takeWhile_imp hmem

/-- A name field with a string and its terminating zero copied to its start. -/
def overwrite (dest : NameField) (source : CString) : NameField := fun index ↦
  (source.chars ++ [0]).getD index (dest index)

/-- `safe_strcpy` into a name field, which keeps what stands behind the terminating zero. It writes
past the field where the source has no zero in its first `dest_size` characters. -/
def safeStrcpyInto (dest : NameField) (source : CString) : Option NameField :=
  if source.chars.length < MAX_FILENAME_LENGTH then some (overwrite dest source) else none

theorem ofField_overwrite {source : CString} (hlen : source.chars.length < MAX_FILENAME_LENGTH)
    (dest : NameField) : CString.ofField (overwrite dest source) = source := by
  have hfield : ofFn (overwrite dest source) =
      source.chars ++ 0 :: (ofFn dest).drop (source.chars.length + 1) := by
    refine ext_getElem? fun index ↦ ?_
    rcases lt_trichotomy index source.chars.length with hlt | rfl | hgt
    · have hidx : index < MAX_FILENAME_LENGTH := hlt.trans hlen
      simp [hidx, overwrite, getElem?_append_left hlt, getElem?_eq_getElem hlt]
    · simp [hlen, overwrite]
    · obtain ⟨beyond, rfl⟩ := Nat.exists_eq_add_of_lt hgt
      have hbeyond : source.chars.length + beyond + 1 - source.chars.length = beyond + 1 := by omega
      simp only [List.getElem?_ofFn, overwrite, List.getD_eq_getElem?_getD]
      rw [List.getElem?_append_right (by omega), List.getElem?_append_right (by omega), hbeyond,
        List.getElem?_cons_succ, List.getElem?_cons_succ, List.getElem?_drop, List.getElem?_ofFn]
      simp [add_right_comm]
  have hchars : ∀ character ∈ source.chars, decide (character ≠ 0) = true := fun character hmem ↦
    decide_eq_true fun hzero ↦ source.zero_notMem (hzero ▸ hmem)
  have htake : (ofFn (overwrite dest source)).takeWhile (· ≠ 0) = source.chars := by
    rw [hfield, takeWhile_append_of_pos hchars]
    simp
  cases source
  exact CString.mk.injEq .. ▸ htake

/-- The loop of `diosfs_find_directory_entry_and_update` over the rest of `inode.blocks`: the block
and the slot with an entry for the inode. It does not count what it reads, so that it ends only with
such an entry. -/
def findEntrySlot (fs : Context) (inodeNumber : ℕ) : List ℕ → Option (ℕ × ℕ)
  | [] => none
  | number :: rest => do
      let buffer ← readBlockByNumber fs number
      match (range DIOSFS_MAX_FILES_IN_DIRENT_BLOCK).find? fun index ↦
        (entryOf buffer index).inodeNumber.toNat == inodeNumber with
      | some index => some (number, index)
      | none => findEntrySlot fs inodeNumber rest

def updatedEntry (directoryEntry : Dirent) (name : NameField) (entry : Inode) : Dirent :=
  { directoryEntry with
    name := name
    size := BitVec.ofNat 32 entry.size
    parentInodeNumber := BitVec.ofNat 32 entry.parentInodeNumber }

/-- `diosfs_find_directory_entry_and_update`. In an empty directory it panics. -/
def findDirectoryEntryAndUpdate (fs : Context) (inodeNumber directoryInodeNumber : ℕ) :
    Option (Except DiosfsError Context) :=
  let entry := fs.inodes inodeNumber
  let inode := fs.inodes directoryInodeNumber
  if inode.type ≠ typeCode .directory then some (.error .notADirectory)
  else if inode.size = 0 then none
  else do
    let (number, index) ← findEntrySlot fs inodeNumber inode.blocks.toList
    let buffer ← readBlockByNumber fs number
    let directoryEntry := entryOf buffer index
    let name ← safeStrcpyInto directoryEntry.name (CString.ofField entry.name)
    if entry.parentInodeNumber ≠ directoryInodeNumber then none
    else do
      let fs ← writeBlockByNumber fs number
        (setEntry buffer index (updatedEntry directoryEntry name entry))
      some (.ok fs)

/-- `diosfs_rename` of the vnode with these inode numbers of itself and of its parent. -/
def rename (fs : Context) (vnodeInodeNumber parentInodeNumber : ℕ) (newName : CString) :
    Option Context :=
  if vnodeInodeNumber = ROOT_INODE then some fs
  else do
    let inode := fs.inodes vnodeInodeNumber
    let name ← safeStrcpyInto inode.name newName
    let fs := writeInode fs { inode with name := name }
    match ← findDirectoryEntryAndUpdate fs vnodeInodeNumber parentInodeNumber with
    | .error _ => some fs
    | .ok fs => some fs

variable {fs : Context} {directory index : ℕ} {entries : List Dirent} {entry : Dirent}

/-- The first slot of the blocks with an entry for the inode, as its number among all slots. -/
def firstSlot (disk : ℕ → Bytes) (inodeNumber : ℕ) (addresses : List ℕ) : Option ℕ :=
  (range (7 * addresses.length)).find? fun index ↦
    (entryOf (disk (addresses.getD (index / 7) 0)) (index % 7)).inodeNumber.toNat == inodeNumber

theorem firstSlot_cons (disk : ℕ → Bytes) (ino addr : ℕ) (rest : List ℕ) :
    firstSlot disk ino (addr :: rest) =
      ((range 7).find? fun index ↦
        (entryOf (disk addr) index).inodeNumber.toNat == ino).or
      ((firstSlot disk ino rest).map (7 + ·)) := by
  have hsplit : range (7 * (addr :: rest).length) =
      range 7 ++ (range (7 * rest.length)).map (7 + ·) := by
    rw [← range_add, length_cons, Nat.mul_succ, add_comm]
  have hshift : ∀ slot, (addr :: rest).getD ((7 + slot) / 7) 0 = rest.getD (slot / 7) 0 :=
    fun slot ↦ by rw [Nat.add_div_left _ (by omega), getD_cons_succ]
  rw [firstSlot, hsplit, find?_append, find?_map]
  simp only [comp_def, hshift, Nat.add_mod_left]
  rfl

theorem findEntrySlot_eq (fs : Context) (ino : ℕ) : ∀ addresses : List ℕ,
    (∀ block ∈ addresses, block < fs.numBlocks) →
      findEntrySlot fs ino addresses =
        (firstSlot fs.blocks ino addresses).map fun index ↦
          (addresses.getD (index / 7) 0, index % 7)
  | [], _ => rfl
  | addr :: rest, hdev => by
      have hblock : readBlockByNumber fs addr = some (fs.blocks addr) :=
        if_pos (hdev addr mem_cons_self)
      have hrest := findEntrySlot_eq fs ino rest
        fun block hmem ↦ hdev block (mem_cons_of_mem _ hmem)
      rw [findEntrySlot, hblock, maxFilesInDirentBlock_eq, firstSlot_cons]
      cases hslot : (range 7).find? fun index ↦
        (entryOf (fs.blocks addr) index).inodeNumber.toNat == ino with
      | none => simp [hslot, hrest, comp_def, Nat.add_div_left]
      | some index =>
        have hidx : index < 7 := mem_range.mp (mem_of_find?_eq_some hslot)
        simp [hslot, Nat.div_eq_of_lt hidx, Nat.mod_eq_of_lt hidx]

section

variable {inode : Inode} (hstores : Stores fs inode entries)
include hstores

theorem Stores.getD_blocks (hidx : index < entries.length) :
    inode.blocks[index / 7]? = some (inode.blocks.toList.getD (index / 7) 0) := by
  have hbound := hstores.length_le
  obtain ⟨block, hblock, -⟩ := hstores.exists_block (show index / 7 < inode.blockCount by omega)
  rw [getD_eq_getElem?_getD, Vector.getElem?_toList, hblock, getD_some]

theorem Stores.entryOf_slot (hentry : entries[index]? = some entry) :
    entryOf (fs.blocks (inode.blocks.toList.getD (index / 7) 0)) (index % 7) = entry := by
  obtain ⟨hidx, -⟩ := List.getElem?_eq_some_iff.mp hentry
  have hstored := hstores.stored index hidx
  rw [entryAt, hstores.getD_blocks hidx, map_some, hentry] at hstored
  exact Option.some.inj hstored

theorem Stores.firstSlot_eq (hentry : entries[index]? = some entry)
    (hearlier : ∀ earlier ∈ entries.take index, earlier.inodeNumber ≠ entry.inodeNumber) :
    firstSlot fs.blocks entry.inodeNumber.toNat inode.blocks.toList = some index := by
  obtain ⟨hidx, -⟩ := List.getElem?_eq_some_iff.mp hentry
  have hbound := hstores.length_le
  have hcount := hstores.blockCount_le
  refine find?_range_eq_some.mpr ⟨?_, ?_, fun earlier hlt ↦ ?_⟩
  · rw [hstores.entryOf_slot hentry]
    exact beq_self_eq_true _
  · rw [mem_range, Vector.length_toList, Vfs.NUM_BLOCKS_DIRECT]
    omega
  · have hget := getElem?_eq_getElem (hlt.trans hidx)
    rw [hstores.entryOf_slot hget, Bool.not_eq_true', beq_eq_false_iff_ne]
    exact fun hsame ↦ hearlier _ (mem_of_getElem? ((getElem?_take_of_lt hlt).trans hget))
      (BitVec.eq_of_toNat_eq hsame)

end

/-- The block of a slot, and what it holds when the entry in the slot repeats the inode. -/
def slotUpdate (disk : ℕ → Bytes) (addresses : List ℕ) (entry : Inode) (index : ℕ) : ℕ × Bytes :=
  let block := addresses.getD (index / 7) 0
  let directoryEntry := entryOf (disk block) (index % 7)
  (block, setEntry (disk block) (index % 7) (updatedEntry directoryEntry
    (overwrite directoryEntry.name (CString.ofField entry.name)) entry))

section

variable (hholds : Holds fs directory entries)
include hholds

theorem findDirectoryEntryAndUpdate_eq (ino : ℕ) :
    let entry := fs.inodes ino
    let addresses := (fs.inodes directory).blocks.toList
    findDirectoryEntryAndUpdate fs ino directory =
      if entries ≠ [] ∧ entry.parentInodeNumber = directory ∧
        (CString.ofField entry.name).chars.length < MAX_FILENAME_LENGTH then
        (firstSlot fs.blocks ino addresses).map fun index ↦
          .ok (fs.setBlock.uncurry (slotUpdate fs.blocks addresses entry index))
      else none := by
  have hdev := hholds.stores.onDevice
  rw [findDirectoryEntryAndUpdate]
  simp only [hholds.type, ne_eq, not_true_eq_false, if_false, hholds.stores.size,
    length_eq_zero_iff, findEntrySlot_eq _ _ _ hdev, bind_eq_bind, safeStrcpyInto]
  cases hslot : firstSlot fs.blocks ino (fs.inodes directory).blocks.toList with
  | none => simp
  | some index =>
    have hidx := mem_range.mp (mem_of_find?_eq_some hslot)
    have hblock : (fs.inodes directory).blocks.toList.getD (index / 7) 0 < fs.numBlocks := by
      rw [getD_eq_getElem?_getD, getElem?_eq_getElem (by omega), getD_some]
      exact hdev _ (getElem_mem _)
    simp only [map_some, bind_some, readBlockByNumber, writeBlockByNumber, if_pos hblock]
    split_ifs with hempty hname hpar hall <;> simp_all [slotUpdate]

theorem findDirectoryEntryAndUpdate_spec (hentry : entries[index]? = some entry)
    (hearlier : ∀ earlier ∈ entries.take index, earlier.inodeNumber ≠ entry.inodeNumber)
    {name : CString} (hname : CString.ofField (fs.inodes entry.inodeNumber.toNat).name = name)
    (hlen : name.chars.length < MAX_FILENAME_LENGTH)
    (hpar : (fs.inodes entry.inodeNumber.toNat).parentInodeNumber = directory) :
    ∃ block ∈ directBlocks (fs.inodes directory), ∃ buf,
      findDirectoryEntryAndUpdate fs entry.inodeNumber.toNat directory =
        some (.ok (fs.setBlock block buf)) ∧
      Holds (fs.setBlock block buf) directory (entries.set index
        (updatedEntry entry (overwrite entry.name name) (fs.inodes entry.inodeNumber.toNat))) := by
  have hstores := hholds.stores
  obtain ⟨hidx, -⟩ := List.getElem?_eq_some_iff.mp hentry
  obtain ⟨block, hblock, hmem, -, hset⟩ := hstores.set hidx
    (updatedEntry entry (overwrite entry.name name) (fs.inodes entry.inodeNumber.toNat))
  refine ⟨block, hmem, _, ?_, hholds.inodeNumber, hholds.type, hset⟩
  rw [hstores.getD_blocks hidx, Option.some.injEq] at hblock
  have hslot := hstores.entryOf_slot hentry
  rw [hblock] at hslot
  rw [findDirectoryEntryAndUpdate_eq hholds,
    if_pos ⟨ne_nil_of_mem (mem_of_getElem? hentry), hpar, hname ▸ hlen⟩,
    hstores.firstSlot_eq hentry hearlier, map_some]
  simp only [slotUpdate, uncurry_apply_pair, hblock, hslot, hname]

variable {number : ℕ} {newName : CString}

theorem Holds.writeName (hnum : (fs.inodes number).inodeNumber = number) (name : NameField) :
    Holds (writeInode fs { fs.inodes number with name := name }) directory entries := by
  by_cases hsame : directory = number
  · subst hsame
    have hinode : (writeInode fs { fs.inodes directory with name := name }).inodes directory =
        { fs.inodes directory with name := name } := by
      rw [writeInode_inodes, hnum, update_self]
    have hstores := hholds.stores
    refine ⟨by rw [hinode]; exact hnum, by rw [hinode]; exact hholds.type, ?_⟩
    rw [hinode]
    exact { hstores with }
  · have hinode : (writeInode fs { fs.inodes number with name := name }).inodes directory =
        fs.inodes directory := by
      rw [writeInode_inodes, hnum, update_of_ne hsame]
    refine ⟨by rw [hinode, hholds.inodeNumber], by rw [hinode, hholds.type], hinode ▸ ?_⟩
    exact hholds.stores.congr rfl hholds.stores.marked fun _ _ ↦ rfl

end

theorem directBlocks_writeName (hnum : (fs.inodes number).inodeNumber = number)
    (name : NameField) (other : ℕ) :
    directBlocks ((writeInode fs { fs.inodes number with name := name }).inodes other) =
      directBlocks (fs.inodes other) := by
  rw [writeInode_inodes, hnum, update_apply]
  split
  · subst other
    rfl
  · rfl

/-- **A rename** puts an entry with the new name and the size of the inode in the place of the old
one, and leaves the other directories alone. -/
theorem rename_spec (hholds : Holds fs directory entries) (hentry : entries[index]? = some entry)
    (hearlier : ∀ earlier ∈ entries.take index, earlier.inodeNumber ≠ entry.inodeNumber)
    (hroot : entry.inodeNumber.toNat ≠ ROOT_INODE)
    (hnum : (fs.inodes entry.inodeNumber.toNat).inodeNumber = entry.inodeNumber.toNat)
    (hpar : (fs.inodes entry.inodeNumber.toNat).parentInodeNumber = directory)
    (hlen : newName.chars.length < MAX_FILENAME_LENGTH) :
    ∃ after, rename fs entry.inodeNumber.toNat directory newName = some after ∧
      Holds after directory (entries.set index (updatedEntry entry (overwrite entry.name newName)
        (fs.inodes entry.inodeNumber.toNat))) ∧
      ∀ other others, other ≠ directory → Holds fs other others →
        (∀ block ∈ directBlocks (fs.inodes other), block ∉ directBlocks (fs.inodes directory)) →
        Holds after other others := by
  set inode := fs.inodes entry.inodeNumber.toNat with hinode
  set written := writeInode fs { inode with name := overwrite inode.name newName } with hwritten
  have hread : written.inodes entry.inodeNumber.toNat =
      { inode with name := overwrite inode.name newName } := by
    rw [hwritten, writeInode_inodes, hnum, update_self]
  obtain ⟨block, hmem, buf, hupdate, hafter⟩ := findDirectoryEntryAndUpdate_spec
    (hholds.writeName hnum (overwrite inode.name newName)) hentry hearlier
    (by rw [hread]; exact ofField_overwrite hlen _) hlen
    (by rw [hread]; exact hpar)
  refine ⟨written.setBlock block buf, ?_, ?_, fun other others hother hholdsOther hapart ↦ ?_⟩
  · simp only [rename, if_neg hroot, ← hinode, safeStrcpyInto, if_pos hlen, bind_eq_bind,
      bind_some]
    rw [hupdate]
    rfl
  · rwa [hread] at hafter
  · have hstill := hholdsOther.writeName hnum (overwrite inode.name newName)
    refine ⟨hstill.inodeNumber, hstill.type, hstill.stores.congr rfl hstill.stores.marked
      fun used hused ↦ update_of_ne ?_ _ _⟩
    rintro rfl
    rw [directBlocks_writeName hnum] at hmem hused
    exact hapart used hused hmem

end DionysOS.Filesystem.Diosfs
