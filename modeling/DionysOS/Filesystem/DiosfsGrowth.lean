import DionysOS.Filesystem.DiosfsDirectory
import DionysOS.Foundation.PartialMachine

/-!
# Growth of a diosfs directory

A creation appends its entry to the parent directory as long as the block for it is there. That is
the case for the first seven entries of a new directory. For the eighth, `diosfs_write_dirent`
compares the index of the block with `block_count` by `>` and allocates nothing, so that the entry
goes to the block that `blocks[1]` happens to name, which is block 0. A listing of 70 entries reads
past the array of blocks.
-/

namespace DionysOS.Filesystem.Diosfs

open Foundation ByteRecords PartialMachine Function Option List
open Vfs (VnodeType DIOSFS_BLOCKSIZE NUM_BLOCKS_DIRECT)

variable {fs : Context} {number : ℕ} {entries : List Dirent}

/-- What the creation of an entry needs. -/
def Meets (state : Context × Vnode) (creation : CString × VnodeType) : Prop :=
  let inode := state.1.inodes state.2.vnodeInodeNumber
  creation.1.chars.length < MAX_FILENAME_LENGTH ∧ CanAllocateInode state.1 ∧
    inode.size < 69 ∧ HasRoom inode ∧ (inode.blockCount = 0 → CanAllocateBlock state.1)

instance : DecidablePred CanAllocateBlock := fun _ ↦ instDecidableAnd

instance : DecidablePred CanAllocateInode := fun _ ↦ instDecidableAnd

instance : DecidablePred HasRoom := fun _ ↦ inferInstanceAs (Decidable (_ < _))

instance (state : Context × Vnode) (creation : CString × VnodeType) :
    Decidable (Meets state creation) := instDecidableAnd

/-- The entry has the name and the type asked for, and the inode number of the vnode returned. -/
def Records (creation : CString × VnodeType) (vnode : Option Vnode) (entry : Dirent) : Prop :=
  ∃ created, vnode = some created ∧ entry.inodeNumber.toNat = created.vnodeInodeNumber ∧
    safeStrcpy creation.1 = some entry.name ∧ entry.type = typeCode creation.2

/-- The vnode is that of the directory with this number, whose inode is live. -/
structure Opens (fs : Context) (parent : Vnode) : Prop where
  filesystemId : parent.vnodeFilesystemId = .diosfs
  type : parent.vnodeType = .directory
  live : fs.inodeBitmap parent.vnodeInodeNumber = true

/-- The inode that a creation writes, under the number `fresh`. -/
def newInode (parent : Vnode) (name : NameField) (type : VnodeType) (fresh : ℕ) : Inode :=
  { Inode.zero with
    inodeNumber := fresh
    type := typeCode type
    parentInodeNumber := parent.vnodeInodeNumber % 2 ^ 16
    name := name }

theorem Extends.writeNewInode {parent : Vnode} {fresh : ℕ} (hfresh : number ≠ fresh)
    (hclear : fs.inodeBitmap fresh = false) (bit : ℕ) (name : NameField) (type : VnodeType) :
    Extends number fs (writeInode (fs.setInodeBit bit true) (newInode parent name type fresh)) := by
  refine ⟨fun _ hmarked ↦ hmarked, fun other hlive ↦ ?_, fun other _ hlive ↦ ?_,
    fun block hown ↦ .inl ?_, fun _ _ _ ↦ rfl⟩
  · by_cases hsame : other = bit
    · simp [hsame]
    · simpa [update_of_ne hsame] using hlive
  · have hother : other ≠ fresh := by
      rintro rfl
      rw [hlive] at hclear
      cases hclear
    exact update_of_ne hother _ _
  · have hsame : (writeInode (fs.setInodeBit bit true) (newInode parent name type fresh)).inodes
        number = fs.inodes number := update_of_ne hfresh _ _
    rwa [hsame] at hown

theorem create_spec {parent : Vnode} {creation : CString × VnodeType} (hopens : Opens fs parent)
    (hholds : Holds fs parent.vnodeInodeNumber entries) (hmeets : Meets (fs, parent) creation) :
    ∃ next vnode entry, create fs parent creation.1 creation.2 =
        some (next, { parent with vnodeSize := parent.vnodeSize + 1 }, vnode) ∧
      Holds next parent.vnodeInodeNumber (entries ++ [entry]) ∧
      Extends parent.vnodeInodeNumber fs next ∧ Records creation vnode entry := by
  obtain ⟨hname, hinode, hsize, hroom, hblock⟩ := hmeets
  obtain ⟨fresh, hfresh, hclear, hfits⟩ := getFreeInodeAndMarkBitmap_spec hinode
  have hne : parent.vnodeInodeNumber ≠ fresh := by
    intro hsame
    rw [← hsame, hopens.live] at hclear
    cases hclear
  obtain ⟨name, hcopied⟩ : ∃ name, safeStrcpy creation.1 = some name := ⟨_, if_pos hname⟩
  let prepared := writeInode (fs.setInodeBit (fresh % BITS_PER_BLOCK) true)
    (newInode parent name creation.2 fresh)
  have hinodeSame : prepared.inodes parent.vnodeInodeNumber = fs.inodes parent.vnodeInodeNumber :=
    update_of_ne hne _ _
  let entry := newEntry prepared parent name creation.2 fresh
  let read : Inode := { fs.inodes parent.vnodeInodeNumber with
    size := (fs.inodes parent.vnodeInodeNumber).size + 1 }
  have hprep : Holds prepared parent.vnodeInodeNumber entries :=
    hholds.writeInode_of_ne hne _
  obtain ⟨next, hwritten, hnext, hextends⟩ := @writeDirent_spec prepared _ _ hprep
    (by rwa [hinodeSame]) (by rw [hinodeSame]; exact hblock) read hholds.inodeNumber
    (by simp only [read]; exact fun hfull ↦ absurd hfull (by
      rw [show DIOSFS_MAX_FILES_IN_DIRECTORY = 71 from rfl]; simp only at hsize; omega)) entry
  refine ⟨next, some ⟨.diosfs, creation.2, fresh, 0⟩, entry, ?_, hnext,
    (Extends.writeNewInode hne hclear _ name creation.2).trans hextends, _, rfl, ?_, hcopied, rfl⟩
  · simp only [create, hopens.filesystemId, hopens.type, hfresh, hcopied, ne_eq, not_true_eq_false,
      if_false, bind_eq_bind, bind_some]
    change (writeDirent prepared read entry).bind _ = _
    have hself : writeInode next (next.inodes parent.vnodeInodeNumber) = next :=
      writeInode_self (by rw [hnext.inodeNumber])
    rw [hwritten]
    exact congrArg (fun fs ↦ some (fs, _, _)) hself
  · exact Nat.mod_eq_of_lt (by omega)

/-- `diosfs_create` as a step: the state is the disk and the parent's vnode. -/
def createStep (state : Context × Vnode) (creation : CString × VnodeType) :
    Option ((Context × Vnode) × Option Vnode) :=
  (create state.1 state.2 creation.1 creation.2).map fun (fs, parent, vnode) ↦ ((fs, parent), vnode)

theorem run_createStep :
    ∀ (creations : List (CString × VnodeType)) {fs : Context} {parent : Vnode}
      {entries : List Dirent}, Opens fs parent → Holds fs parent.vnodeInodeNumber entries →
      entries.length < 70 → Guarded createStep Meets (fs, parent) creations →
      ∃ final grown vnodes added,
        run createStep (fs, parent) creations = some ((final, grown), vnodes) ∧
        added.length = creations.length ∧ (entries ++ added).length < 70 ∧
        Forall₂ (fun req entry ↦ Records req.1 req.2 entry)
          (creations.zip vnodes) added ∧
        Holds final parent.vnodeInodeNumber (entries ++ added) ∧
        Extends parent.vnodeInodeNumber fs final
  | [], fs, parent, entries, _, hholds, hlen, _ =>
      ⟨fs, parent, [], [], rfl, rfl, by simpa using hlen, .nil, by simpa using hholds, .refl _ _⟩
  | creation :: creations, fs, parent, entries, hopens, hholds, hlen, hguarded => by
      obtain ⟨next, vnode, entry, hcreate, hnext, hextends, hrecords⟩ :=
        create_spec hopens hholds hguarded.1
      let grown : Vnode := { parent with vnodeSize := parent.vnodeSize + 1 }
      have hstep : createStep (fs, parent) creation = some ((next, grown), vnode) := by
        rw [createStep, hcreate]
        rfl
      have hsize : entries.length < 69 := hholds.stores.size ▸ hguarded.1.2.2.1
      obtain ⟨final, last, vnodes, added, hrun, hadded, htotal, hall, hfinal, hrest⟩ :=
        @run_createStep creations next grown (entries ++ [entry])
          ⟨hopens.filesystemId, hopens.type, hextends.live _ hopens.live⟩ hnext
          (by rw [length_append, length_singleton]; omega) (hguarded.2 _ _ hstep)
      rw [append_assoc, singleton_append] at htotal hfinal
      exact ⟨final, last, vnode :: vnodes, entry :: added, run_cons_of_step hstep hrun,
        by rw [length_cons, length_cons, hadded], htotal, .cons hrecords hall, hfinal,
        hextends.trans hrest⟩

/-- The blocks of other live inodes are marked, and none of them is the directory's. -/
def Apart (fs : Context) (number : ℕ) : Prop :=
  ∀ other, other ≠ number → fs.inodeBitmap other = true →
    ∀ block ∈ blocksOf fs.blocks (fs.inodes other),
      fs.blockBitmap block = true ∧ block ∉ directBlocks (fs.inodes number)

/-- **Growth of a directory.** Creations in an empty directory that all find room return. A listing
then returns one entry for each, in order, and the blocks of other files and directories are as they
were. No index left `inode.blocks`, since such an access does not return. -/
theorem run_create_listing {parent : Vnode} {creations : List (CString × VnodeType)}
    (hopens : Opens fs parent) (hempty : Holds fs parent.vnodeInodeNumber [])
    (hapart : Apart fs parent.vnodeInodeNumber)
    (hguarded : Guarded createStep Meets (fs, parent) creations) :
    ∃ final grown vnodes entries,
      run createStep (fs, parent) creations = some ((final, grown), vnodes) ∧
      entries.length = creations.length ∧
      Forall₂ (fun request entry ↦ Records request.1 request.2 entry)
        (creations.zip vnodes) entries ∧
      (∀ childrenSize,
        (final.inodes parent.vnodeInodeNumber).blockCount * DIOSFS_BLOCKSIZE ≤ childrenSize →
        entries.length * DIRECTORY_ENTRY_SIZE ≤ childrenSize →
        getDirectoryEntries final parent.vnodeInodeNumber childrenSize = some (.ok entries)) ∧
      ∀ other, other ≠ parent.vnodeInodeNumber → fs.inodeBitmap other = true →
        ∀ block ∈ blocksOf fs.blocks (fs.inodes other), final.blocks block = fs.blocks block := by
  obtain ⟨final, grown, vnodes, entries, hrun, hlen, htotal, hrecords, hholds, hextends⟩ :=
    run_createStep creations hopens hempty (by simp) hguarded
  rw [nil_append] at htotal hholds
  refine ⟨final, grown, vnodes, entries, hrun, hlen, hrecords,
    fun childrenSize hblocks hchildren ↦ ?_, fun other hother hlive block hblock ↦ ?_⟩
  · have hsize := hholds.stores.size
    rw [getDirectoryEntries_eq hholds.type (by omega) hholds.stores.onDevice hblocks
      (by rwa [hsize]), hholds.stores.listing_eq htotal]
  · obtain ⟨hmarked, hnot⟩ := hapart other hother hlive block hblock
    exact hextends.blocks block hmarked hnot

/-- The file system of `diosfs_create_new_ramdisk_fs` when it has written the root. -/
def freshDisk : Context where
  superblock := ⟨16, 128, 17, 145⟩
  deviceMinor := 0
  numBlocks := 1048576
  inodeBitmap := fun number ↦ number == 0
  blockBitmap := fun _ ↦ false
  inodes := fun _ ↦ Inode.zero
  blocks := fun _ _ ↦ 0

def rootVnode : Vnode := ⟨.diosfs, .directory, 0, 0⟩

def letterFile (letter : Byte) (hletter : letter ≠ 0) : CString × VnodeType :=
  (⟨[letter], zero_notMem_singleton hletter⟩, .file)

theorem opens_rootVnode : Opens freshDisk rootVnode := ⟨rfl, rfl, rfl⟩

theorem holds_freshDisk : Holds freshDisk 0 [] := by
  refine ⟨rfl, rfl, rfl, by decide, by decide, ?_, by decide, by decide, by simp⟩
  intro block hblock
  have hzero : NUM_BLOCKS_DIRECT ≠ 0 ∧ block = 0 := by
    simpa [freshDisk, Inode.zero] using hblock
  rw [hzero.2]
  decide

theorem apart_freshDisk : Apart freshDisk 0 := by
  intro other hother hlive
  exact absurd (by simpa [freshDisk] using hlive) hother

/-- Two files in the root of a fresh file system. -/
theorem run_create_listing_freshDisk :
    Guarded createStep Meets (freshDisk, rootVnode)
      [letterFile 97 (by decide), letterFile 98 (by decide)] ∧
    ∃ final grown vnodes entries,
      run createStep (freshDisk, rootVnode)
        [letterFile 97 (by decide), letterFile 98 (by decide)] = some ((final, grown), vnodes) ∧
      entries.length = 2 ∧ ∀ childrenSize,
        (final.inodes 0).blockCount * DIOSFS_BLOCKSIZE ≤ childrenSize →
        entries.length * DIRECTORY_ENTRY_SIZE ≤ childrenSize →
        getDirectoryEntries final 0 childrenSize = some (.ok entries) := by
  have hguarded : Guarded createStep Meets (freshDisk, rootVnode)
      [letterFile 97 (by decide), letterFile 98 (by decide)] := by decide +kernel
  obtain ⟨final, grown, vnodes, entries, hrun, hlen, -, hlisting, -⟩ :=
    run_create_listing opens_rootVnode holds_freshDisk apart_freshDisk hguarded
  exact ⟨hguarded, final, grown, vnodes, entries, hrun, hlen, hlisting⟩

/-- Eight files in the root of a fresh file system get the inodes 1 to 8. The eighth entry goes to
block 0, which is the first block of the root, and the first one is lost. -/
theorem run_create_not_listing :
    Opens freshDisk rootVnode ∧ Holds freshDisk 0 [] ∧ Apart freshDisk 0 ∧
    ∃ final grown vnodes,
      run createStep (freshDisk, rootVnode)
        [letterFile 97 (by decide), letterFile 98 (by decide), letterFile 99 (by decide),
          letterFile 100 (by decide), letterFile 101 (by decide), letterFile 102 (by decide),
          letterFile 103 (by decide), letterFile 104 (by decide)] =
        some ((final, grown), vnodes) ∧
      vnodes.map (Option.map Vnode.vnodeInodeNumber) =
        [some 1, some 2, some 3, some 4, some 5, some 6, some 7, some 8] ∧
      listedNumbers final 0 2048 = some [8, 2, 3, 4, 5, 6, 7, 8] := by
  have hrun : (run createStep (freshDisk, rootVnode)
      [letterFile 97 (by decide), letterFile 98 (by decide), letterFile 99 (by decide),
        letterFile 100 (by decide), letterFile 101 (by decide), letterFile 102 (by decide),
        letterFile 103 (by decide), letterFile 104 (by decide)]).map (fun result ↦
        (result.2.map (Option.map Vnode.vnodeInodeNumber), listedNumbers result.1.1 0 2048)) =
      some ([some 1, some 2, some 3, some 4, some 5, some 6, some 7, some 8],
        some [8, 2, 3, 4, 5, 6, 7, 8]) := by
    decide +kernel
  obtain ⟨⟨⟨final, grown⟩, vnodes⟩, hret, hres⟩ := map_eq_some_iff.mp hrun
  obtain ⟨hnumbers, hlisted⟩ := Prod.mk.inj hres
  exact ⟨opens_rootVnode, holds_freshDisk, apart_freshDisk, final, grown, vnodes, hret, hnumbers,
    hlisted⟩

end DionysOS.Filesystem.Diosfs
