import DionysOS.Filesystem.DiosfsRename
import DionysOS.Filesystem.RenamedWalk

/-!
# A rename and a remount

`lookupDisk` is what lookups read of a diosfs disk, and `StoredTree` is a tree stored on it. The main
theorem `rename_survives_iff` follows `diosfs_rename` on the disk and then the lookups in a vnode tree
that is built from the disk again.

The update of the entry also copies the size of the inode. For a directory that is the number of its
entries, where creation had left a zero. A vnode made from the entry then counts that many children,
none of which it has, and the directory is never read.
-/

namespace DionysOS.Filesystem.Diosfs

open Foundation.ByteRecords List
open Vfs (VnodeType DIOSFS_BLOCKSIZE NUM_BLOCKS_DIRECT ROOT_INODE Disk DirectoryEntry TreeDisk
  Renamed Gives GivesNull SurvivesRemount Comparable Components Leads diskEntries registered vnodeLookup
  absolutePath)

def charOf (byte : Byte) : Char := Char.ofNat byte.toNat

def CString.toChars (name : CString) : List Char := name.chars.map charOf

/-- The type with a code. Codes from 9 on stand for none; a lookup asks only for directories. -/
def ofCode (code : BitVec 16) : VnodeType :=
  [.directory, .file, .hardLink, .blockDev, .charDev, .netDev, .special, .specialFile].getD
    code.toNat .symLink

theorem ofCode_typeCode (type : VnodeType) : ofCode (typeCode type) = type := by
  cases type <;> rfl

theorem ofCode_eq_directory_iff {code : BitVec 16} :
    ofCode code = .directory ↔ code = typeCode .directory := by
  constructor
  · intro hdir
    refine BitVec.eq_of_toNat_eq ?_
    rw [ofCode] at hdir
    rcases hcode : code.toNat with _ | _ | _ | _ | _ | _ | _ | _ | _ <;>
      simp_all [typeCode]
  · rintro rfl
    rfl

def Dirent.nameOf (entry : Dirent) : List Char := (CString.ofField entry.name).toChars

def lookupEntry (entry : Dirent) : DirectoryEntry :=
  ⟨entry.nameOf, entry.inodeNumber.toNat, ofCode entry.type, entry.size.toNat⟩

def lookupDisk (fs : Context) : Disk := fun number ↦
  let inode := fs.inodes number
  { type := ofCode inode.type
    size := inode.size
    blockCount := inode.blockCount
    entries := ((readEntries fs inode.blocks.toList inode.size).getD []).map lookupEntry }

section Lookups

variable {fs : Context} {number : ℕ} {entries : List Dirent}

section

variable (hholds : Holds fs number entries) (hfew : entries.length < 70)
include hholds hfew

theorem Holds.readEntries_eq :
    readEntries fs (fs.inodes number).blocks.toList (fs.inodes number).size = some entries := by
  have hlisting := hholds.stores.listing_eq hfew
  rw [Diosfs.readEntries_eq fs _ _ (by rw [Vector.length_toList, hholds.stores.size]; exact hfew)
    hholds.stores.onDevice]
  exact congrArg some hlisting

theorem Holds.lookupDisk_eq :
    lookupDisk fs number = ⟨.directory, entries.length, (fs.inodes number).blockCount,
      entries.map lookupEntry⟩ := by
  have hsize := hholds.stores.size
  simp only [lookupDisk, hholds.readEntries_eq hfew, Option.getD_some, hholds.type, ofCode_typeCode]
  rw [hsize]

theorem Holds.diskEntries_eq :
    diskEntries (lookupDisk fs) number = entries.map lookupEntry := by
  rw [diskEntries, hholds.lookupDisk_eq hfew]
  exact take_of_length_le (by rw [length_map])

theorem Holds.holdsDirectory :
    Vfs.HoldsDirectory (lookupDisk fs number) := by
  rw [hholds.lookupDisk_eq hfew]
  exact ⟨rfl, hholds.stores.blockCount_le, by simp⟩

end

theorem readEntries_eq_some : ∀ {addresses : List ℕ} {left : ℕ} {listed : List Dirent},
    readEntries fs addresses left = some listed →
      listed.length = left ∧ left < 7 * addresses.length
  | [], left, listed, hread => by cases hread
  | addr :: rest, left, listed, hread => by
      rw [readEntries, maxFilesInDirentBlock_eq] at hread
      obtain ⟨buf, -, hread⟩ := Option.bind_eq_some_iff.mp hread
      split at hread
      · cases hread
        rw [blockEntries, length_map, length_range, length_cons]
        omega
      · obtain ⟨others, hothers, hread⟩ := Option.bind_eq_some_iff.mp hread
        cases hread
        obtain ⟨hlen, hbound⟩ := readEntries_eq_some hothers
        rw [length_append, hlen, blockEntries, length_map, length_range, length_cons]
        omega

/-- `diosfs_get_directory_entries` on the disk and in path resolution: the two agree for the buffer
of a lookup, which asks only directories with a size. -/
theorem diosfsGetDirectoryEntries_lookupDisk (hsize : (fs.inodes number).size ≠ 0) :
    Vfs.diosfsGetDirectoryEntries (lookupDisk fs number) (DIOSFS_BLOCKSIZE * NUM_BLOCKS_DIRECT) =
      match getDirectoryEntries fs number (DIOSFS_BLOCKSIZE * NUM_BLOCKS_DIRECT) with
      | none => none
      | some (.error .notADirectory) => some (.error .notADirectory)
      | some (.error _) => some (.error .bufferTooSmall)
      | some (.ok listed) => some (.ok (listed.map lookupEntry)) := by
  rw [Vfs.diosfsGetDirectoryEntries, getDirectoryEntries]
  by_cases htype : (fs.inodes number).type = typeCode .directory
  swap
  · have htype' : ¬ (lookupDisk fs number).type = .directory := fun h ↦
      htype (ofCode_eq_directory_iff.mp h)
    rw [if_pos htype', if_pos htype]
  have htype' : (lookupDisk fs number).type = .directory := ofCode_eq_directory_iff.mpr htype
  rw [if_neg (not_not.mpr htype'), if_neg (not_not.mpr htype)]
  by_cases hcount : DIOSFS_BLOCKSIZE * NUM_BLOCKS_DIRECT <
      (fs.inodes number).blockCount * DIOSFS_BLOCKSIZE
  · rw [if_pos hcount]
    exact if_pos hcount
  rw [if_neg hcount]
  refine (if_neg hcount).trans ?_
  cases hread : readEntries fs (fs.inodes number).blocks.toList (fs.inodes number).size with
  | none =>
    have hentries : (lookupDisk fs number).entries = [] := by
      simp only [lookupDisk, hread, Option.getD_none, map_nil]
    have hshort : (lookupDisk fs number).entries.length < (lookupDisk fs number).size := by
      rw [hentries]
      exact pos_of_ne_zero hsize
    rw [if_pos hshort, Option.map_none, ite_self]
  | some listed =>
    obtain ⟨hlen, hbound⟩ := readEntries_eq_some hread
    rw [Vector.length_toList, NUM_BLOCKS_DIRECT] at hbound
    have hentries : (lookupDisk fs number).entries = listed.map lookupEntry := by
      simp only [lookupDisk, hread, Option.getD_some]
    have hsame : (listed.map lookupEntry).length = (lookupDisk fs number).size := by
      rw [length_map]
      exact hlen
    have hfits : ¬ DIOSFS_BLOCKSIZE * NUM_BLOCKS_DIRECT <
        (fs.inodes number).size * DIRECTORY_ENTRY_SIZE := by
      simp only [DIOSFS_BLOCKSIZE, NUM_BLOCKS_DIRECT, DIRECTORY_ENTRY_SIZE]
      omega
    rw [hentries, hsame, if_neg (lt_irrefl _), if_neg hfits, Option.map_some, ← hsame,
      take_length]

end Lookups

/-- A tree that is stored on the disk: each of its directories holds its entries in blocks of its own,
the inode of an entry knows its number and its directory, and what a lookup reads is a tree. -/
structure StoredTree (fs : Context) where
  directories : Set ℕ
  entries : ℕ → List Dirent
  holds : ∀ number ∈ directories, Holds fs number (entries number)
  apart : ∀ number ∈ directories, ∀ other ∈ directories, number ≠ other →
    ∀ block ∈ directBlocks (fs.inodes number), block ∉ directBlocks (fs.inodes other)
  inodeNumber : ∀ number ∈ directories, ∀ entry ∈ entries number,
    (fs.inodes entry.inodeNumber.toNat).inodeNumber = entry.inodeNumber.toNat
  parentInodeNumber : ∀ number ∈ directories, ∀ entry ∈ entries number,
    (fs.inodes entry.inodeNumber.toNat).parentInodeNumber = number
  tree : TreeDisk (lookupDisk fs) directories

variable {number : ℕ}

namespace StoredTree

variable {fs : Context} (tree : StoredTree fs) {directory dir index idx : ℕ} {entry : Dirent}

section

variable (hnum : number ∈ tree.directories)
include hnum

theorem length_le :
    (tree.entries number).length ≤ 64 := by
  rw [← (tree.holds number hnum).stores.size]
  exact tree.tree.few number hnum

theorem diskEntries_eq :
    diskEntries (lookupDisk fs) number = (tree.entries number).map lookupEntry :=
  (tree.holds number hnum).diskEntries_eq (by
    have hlen := tree.length_le hnum
    omega)

theorem lookupEntry_mem (hentry : entry ∈ tree.entries number) :
    lookupEntry entry ∈ diskEntries (lookupDisk fs) number := by
  rw [tree.diskEntries_eq hnum]
  exact mem_map_of_mem hentry

end

theorem inodeNumber_ne (hdir : dir ∈ tree.directories)
    (hentry : (tree.entries dir)[idx]? = some entry) :
    ∀ earlier ∈ (tree.entries dir).take idx, earlier.inodeNumber ≠ entry.inodeNumber := by
  intro earlier hearlier hsame
  obtain ⟨hidx, hget⟩ := List.getElem?_eq_some_iff.mp hentry
  have hapart := tree.tree.apart dir hdir
  rw [tree.diskEntries_eq hdir, pairwise_map,
    ← take_append_drop idx (tree.entries dir), drop_eq_getElem_cons hidx, hget] at hapart
  have hnames := (pairwise_append.mp hapart).2.2 earlier hearlier entry mem_cons_self
  obtain ⟨-, hequal⟩ := tree.tree.unique _ hdir _ hdir _
    (tree.lookupEntry_mem hdir (mem_of_mem_take hearlier)) _
    (tree.lookupEntry_mem hdir (mem_of_getElem? hentry))
    (congrArg BitVec.toNat hsame)
  exact hnames (hequal ▸ Comparable.refl _)

/-- The entry with the new name, as a lookup reads it. -/
def renamedEntry (fs : Context) (entry : Dirent) (newName : CString) : DirectoryEntry :=
  ⟨newName.toChars, entry.inodeNumber.toNat, ofCode entry.type,
    (fs.inodes entry.inodeNumber.toNat).size % 2 ^ 32⟩

variable {newName : CString}

theorem lookupEntry_updatedEntry
    (hlen : newName.chars.length < MAX_FILENAME_LENGTH) (entry : Dirent) :
    lookupEntry (updatedEntry entry (overwrite entry.name newName)
      (fs.inodes entry.inodeNumber.toNat)) = renamedEntry fs entry newName := by
  have hname : (updatedEntry entry (overwrite entry.name newName)
      (fs.inodes entry.inodeNumber.toNat)).nameOf = newName.toChars :=
    congrArg CString.toChars (ofField_overwrite hlen entry.name)
  rw [lookupEntry, hname]
  simp [updatedEntry, renamedEntry]

theorem rename_renamed (hdir : dir ∈ tree.directories)
    (hentry : (tree.entries dir)[idx]? = some entry)
    (hlen : newName.chars.length < MAX_FILENAME_LENGTH) :
    ∃ after, rename fs entry.inodeNumber.toNat dir newName = some after ∧
      Renamed (lookupDisk fs) (lookupDisk after) tree.directories dir idx
        (lookupEntry entry) (renamedEntry fs entry newName) := by
  have hmem := mem_of_getElem? hentry
  have hlookup := tree.lookupEntry_mem hdir hmem
  obtain ⟨after, hrename, hholds, hothers⟩ := rename_spec (tree.holds dir hdir) hentry
    (tree.inodeNumber_ne hdir hentry) (tree.tree.unnamed dir hdir _ hlookup)
    (tree.inodeNumber dir hdir entry hmem)
    (tree.parentInodeNumber dir hdir entry hmem) hlen
  have hlist : diskEntries (lookupDisk after) dir =
      (diskEntries (lookupDisk fs) dir).set idx (renamedEntry fs entry newName) := by
    rw [hholds.diskEntries_eq (by have := tree.length_le hdir; rw [length_set]; omega),
      map_set, lookupEntry_updatedEntry hlen, tree.diskEntries_eq hdir]
  have hholdsOther : ∀ number ∈ tree.directories, number ≠ dir →
      Holds after number (tree.entries number) := fun number hnum hne ↦
    hothers number _ hne (tree.holds number hnum)
      (tree.apart number hnum dir hdir hne)
  have hother : ∀ number ∈ tree.directories, number ≠ dir →
      diskEntries (lookupDisk after) number = diskEntries (lookupDisk fs) number := by
    intro number hnum hne
    have hfew := tree.length_le hnum
    rw [(hholdsOther number hnum hne).diskEntries_eq (by omega), tree.diskEntries_eq hnum]
  refine ⟨after, hrename, hdir, ⟨tree.tree.root, fun number hnum ↦ ?_,
    fun number hnum child hchild htype ↦ ?_⟩, ?_, hlist, hother, rfl, rfl⟩
  · have hfew := tree.length_le hnum
    by_cases hne : number = dir
    · subst hne
      exact hholds.holdsDirectory (by rw [length_set]; omega)
    · exact (hholdsOther number hnum hne).holdsDirectory (by omega)
  · by_cases hne : number = dir
    · subst hne
      rw [hlist] at hchild
      rcases mem_or_eq_of_mem_set hchild with hchild | rfl
      · exact tree.tree.closed number hnum child hchild htype
      · exact tree.tree.closed number hnum (lookupEntry entry) hlookup htype
    · rw [hother number hnum hne] at hchild
      exact tree.tree.closed number hnum child hchild htype
  · rw [tree.diskEntries_eq hdir, getElem?_map, hentry, Option.map_some]

theorem renamedEntry_size_iff (hdir : dir ∈ tree.directories)
    (hentry : entry ∈ tree.entries dir) (htype : entry.type = typeCode .directory)
    (newName : CString) :
    (diskEntries (lookupDisk fs) entry.inodeNumber.toNat ≠ [] →
        (renamedEntry fs entry newName).size % 2 ^ 8 = 0) ↔
      (fs.inodes entry.inodeNumber.toNat).size = 0 := by
  have hnum : entry.inodeNumber.toNat ∈ tree.directories :=
    tree.tree.closed dir hdir _ (tree.lookupEntry_mem hdir hentry)
      (ofCode_eq_directory_iff.mpr htype)
  have hsize := (tree.holds _ hnum).stores.size
  have hfew := tree.length_le hnum
  rw [tree.diskEntries_eq hnum, ne_eq, map_eq_nil_iff, ← length_eq_zero_iff, ← hsize]
  simp only [renamedEntry]
  omega

end StoredTree

/-- **A rename survives a remount** if and only if the new name fits into its field, the code tells it
apart from the old name and from those of the entries before, and the entry is not that of a directory
with entries that lookups could reach. -/
theorem rename_survives_iff {fs : Context} (tree : StoredTree fs) {directory index : ℕ}
    {entry : Dirent} (hdirectory : directory ∈ tree.directories)
    (hentry : (tree.entries directory)[index]? = some entry) {path : List (List Char)}
    (hpath : Components (path ++ [entry.nameOf]))
    (hold : Gives (lookupDisk fs) (path ++ [entry.nameOf]) entry.inodeNumber.toNat)
    {newName : CString} (hnew : newName.toChars ≠ [] ∧ '/' ∉ newName.toChars)
    (hfresh : ∀ other ∈ tree.entries directory, other.nameOf ≠ newName.toChars) :
    (∃ after, rename fs entry.inodeNumber.toNat directory newName = some after ∧
      SurvivesRemount (lookupDisk fs) (lookupDisk after) path entry.nameOf newName.toChars
        entry.inodeNumber.toNat) ↔
      newName.chars.length < MAX_FILENAME_LENGTH ∧
        ¬ Comparable entry.nameOf newName.toChars ∧
        (∀ earlier ∈ (tree.entries directory).take index,
          ¬ Comparable earlier.nameOf newName.toChars) ∧
        (entry.type = typeCode .directory → entry.size.toNat % 2 ^ 8 = 0 →
          (fs.inodes entry.inodeNumber.toNat).size = 0) := by
  have hmem := mem_of_getElem? hentry
  have hlookup := tree.lookupEntry_mem hdirectory hmem
  by_cases hlen : newName.chars.length < MAX_FILENAME_LENGTH
  swap
  · have hroot : entry.inodeNumber.toNat ≠ ROOT_INODE :=
      tree.tree.unnamed directory hdirectory _ hlookup
    simp [rename, hroot, safeStrcpyInto, hlen]
  obtain ⟨target, hleads, hnumber⟩ := (tree.tree.gives_iff hpath).mp hold
  obtain ⟨parent, -, -, hpar, htarget, -⟩ := tree.tree.leads_concat hleads
  obtain ⟨-, rfl⟩ := tree.tree.unique _ hpar _ hdirectory _ htarget _ hlookup hnumber
  obtain ⟨after, hrename, hrenamed⟩ := tree.rename_renamed hdirectory hentry hlen
  have hsurvives := hrenamed.survives_iff tree.tree hleads hnew
    (by rw [StoredTree.renamedEntry, CString.toChars, length_map]; exact hlen)
    (by
      intro other hother
      rw [tree.diskEntries_eq hdirectory] at hother
      obtain ⟨found, hfound, rfl⟩ := mem_map.mp hother
      exact hfresh found hfound)
  rw [tree.diskEntries_eq hdirectory, ← map_take, forall_mem_map] at hsurvives
  have hsize := tree.renamedEntry_size_iff hdirectory hmem
  constructor
  · rintro ⟨after', hrename', hafter⟩
    obtain rfl : after = after' := Option.some.inj (hrename.symm.trans hrename')
    obtain ⟨hname, hearlier, hread⟩ := hsurvives.mp hafter
    exact ⟨hlen, hname, hearlier, fun htype hnone ↦
      (hsize htype newName).mp (hread (ofCode_eq_directory_iff.mpr htype) hnone)⟩
  · rintro ⟨-, hname, hearlier, hempty⟩
    refine ⟨after, hrename, hsurvives.mpr ⟨hname, hearlier, fun htype hnone ↦ ?_⟩⟩
    have htype := ofCode_eq_directory_iff.mp htype
    exact (hsize htype newName).mpr (hempty htype hnone)

def letter (byte : Byte) (hbyte : byte ≠ 0) : CString :=
  ⟨[byte], zero_notMem_singleton hbyte⟩

/-- The entry of the directory `d` in the root, as creation leaves it. -/
def entryD : Dirent := ⟨overwrite (fun _ ↦ 0) (letter 100 (by decide)), 1, 0, typeCode .directory, 0, 0⟩

/-- The entry of the file `f` in that directory. -/
def entryF : Dirent := ⟨overwrite (fun _ ↦ 0) (letter 102 (by decide)), 2, 1, typeCode .file, 0, 0⟩

/-- The inode of a directory with one entry, in the data block `block`. -/
def oneEntryInode (number block : ℕ) : Inode :=
  { Inode.zero with
    inodeNumber := number
    type := typeCode .directory
    size := 1
    blockCount := 1
    blocks := Vector.replicate NUM_BLOCKS_DIRECT block }

/-- A disk with the file `/d/f`. -/
def nestedFile : Context where
  superblock := ⟨1, 1, 1, 0⟩
  deviceMinor := 0
  numBlocks := 2
  inodeBitmap number := decide (number < 3)
  blockBitmap number := decide (number < 2)
  inodes number :=
    if number < 2 then oneEntryInode number number
    else { Inode.zero with inodeNumber := number, type := typeCode .file, parentInodeNumber := 1 }
  blocks number := setEntry (fun _ ↦ 0) 0 (if number = 0 then entryD else entryF)

theorem diskEntries_nestedFile :
    diskEntries (lookupDisk nestedFile) 0 = [⟨['d'], 1, .directory, 0⟩] ∧
      diskEntries (lookupDisk nestedFile) 1 = [⟨['f'], 2, .file, 0⟩] := by
  decide +kernel

theorem directBlocks_oneEntryInode (number block : ℕ) :
    directBlocks (oneEntryInode number block) = [block] := rfl

theorem inodes_nestedFile (hnum : number < 2) :
    nestedFile.inodes number = oneEntryInode number number := if_pos hnum

theorem holds_nestedFile (hnum : number < 2) :
    Holds nestedFile number [if number = 0 then entryD else entryF] := by
  refine ⟨by rw [inodes_nestedFile hnum]; rfl, by rw [inodes_nestedFile hnum]; rfl, ?_⟩
  rw [inodes_nestedFile hnum]
  refine ⟨rfl, show 1 ≤ 10 by omega, show 1 ≤ 7 * 1 by omega, fun block hblock ↦ ?_, ?_,
    fun block hblock ↦ ?_, fun idx hidx ↦ ?_⟩
  · simp only [oneEntryInode, Vector.toList_replicate, mem_replicate] at hblock
    exact hblock.2 ▸ hnum
  · exact nodup_singleton _
  · rw [directBlocks_oneEntryInode, mem_singleton] at hblock
    exact decide_eq_true (hblock ▸ hnum)
  · obtain rfl : idx = 0 := by simpa using hidx
    exact congrArg some (entryOf_setEntry_self ..)

def nestedFileTree : StoredTree nestedFile where
  directories := {number | number < 2}
  entries number := [if number = 0 then entryD else entryF]
  holds _ hnumber := holds_nestedFile hnumber
  apart number hnumber other hother hne block hblock := by
    rw [inodes_nestedFile hnumber, directBlocks_oneEntryInode, mem_singleton] at hblock
    rw [inodes_nestedFile hother, directBlocks_oneEntryInode, mem_singleton]
    exact fun h ↦ hne (hblock.symm.trans h)
  inodeNumber number _ entry hentry := by
    rw [mem_singleton.mp hentry]
    split <;> rfl
  parentInodeNumber number hnumber entry hentry := by
    have hlt : number < 2 := hnumber
    rw [mem_singleton.mp hentry]
    split
    · subst number
      rfl
    · obtain rfl : number = 1 := by omega
      rfl
  tree := by
    obtain ⟨hroot, hnested⟩ := diskEntries_nestedFile
    have hcases : ∀ number < 2, ∀ entry ∈ diskEntries (lookupDisk nestedFile) number,
        (number = 0 ∧ entry = ⟨['d'], 1, .directory, 0⟩) ∨
          (number = 1 ∧ entry = ⟨['f'], 2, .file, 0⟩) := by
      intro number hnumber entry hentry
      obtain rfl | rfl : number = 0 ∨ number = 1 := by omega
      · exact .inl ⟨rfl, mem_singleton.mp (hroot ▸ hentry)⟩
      · exact .inr ⟨rfl, mem_singleton.mp (hnested ▸ hentry)⟩
    refine ⟨⟨show 0 < 2 by omega, fun number hnumber ↦ ?_, fun number hnumber entry hentry htype ↦ ?_⟩,
      fun number hnumber ↦ ?_, fun number hnumber entry hentry ↦ ?_, fun number hnumber ↦ ?_,
      fun number hnumber entry hentry ↦ ?_,
      fun number hnumber other hother first hfirst second hsecond hsame ↦ ?_⟩
    · exact (holds_nestedFile hnumber).holdsDirectory (by simp)
    · obtain ⟨-, rfl⟩ | ⟨-, rfl⟩ := hcases number hnumber entry hentry
      · exact show 1 < 2 by omega
      · cases htype
    · rw [(holds_nestedFile hnumber).lookupDisk_eq (by simp)]
      exact show 1 ≤ 64 by omega
    · obtain ⟨-, rfl⟩ | ⟨-, rfl⟩ := hcases number hnumber entry hentry <;> decide
    · rw [(holds_nestedFile hnumber).diskEntries_eq (by simp)]
      exact pairwise_singleton _ _
    · obtain ⟨-, rfl⟩ | ⟨-, rfl⟩ := hcases number hnumber entry hentry <;> decide
    · obtain ⟨rfl, rfl⟩ | ⟨rfl, rfl⟩ := hcases number hnumber first hfirst <;>
        obtain ⟨rfl, rfl⟩ | ⟨rfl, rfl⟩ := hcases other hother second hsecond <;>
        simp_all

theorem leads_nestedFile :
    Leads (lookupDisk nestedFile) Vfs.rootEntry [['d'], ['f']] ⟨['f'], 2, .file, 0⟩ := by
  refine ⟨by decide, rfl, ⟨['d'], 1, .directory, 0⟩, ?_, rfl, by decide, rfl,
    ⟨['f'], 2, .file, 0⟩, ?_, rfl, rfl⟩
  · decide +kernel
  · decide +kernel

theorem gives_nestedFile : Gives (lookupDisk nestedFile) [['d'], ['f']] 2 :=
  (nestedFileTree.tree.gives_iff (by simp [Components])).mpr ⟨_, leads_nestedFile, rfl⟩

/-- The file can be renamed to `g`. -/
theorem rename_survives_nestedFile :
    ∃ after, rename nestedFile 2 1 (letter 103 (by decide)) = some after ∧
      SurvivesRemount (lookupDisk nestedFile) (lookupDisk after) [['d']] ['f'] ['g'] 2 := by
  have hname : entryF.nameOf = ['f'] := by decide +kernel
  have hiff := @rename_survives_iff nestedFile nestedFileTree 1 0 entryF (show 1 < 2 by omega) rfl
    [['d']] (by rw [hname]; simp [Components]) (by rw [hname]; exact gives_nestedFile)
    (letter 103 (by decide)) (by decide) (by decide +kernel)
  exact hiff.mpr ⟨by decide, by decide, by simp, by decide⟩

/-- The directory cannot: renamed to `e`, it counts a child that it does not have, and `/e/f` is not
found. -/
theorem rename_not_survives :
    0 ∈ nestedFileTree.directories ∧ nestedFileTree.entries 0 = [entryD] ∧
      Gives (lookupDisk nestedFile) [['d'], ['f']] 2 ∧
      ∃ after, rename nestedFile 1 0 (letter 101 (by decide)) = some after ∧
        GivesNull (lookupDisk after) [['e'], ['f']] ∧
        ¬ SurvivesRemount (lookupDisk nestedFile) (lookupDisk after) [] ['d'] ['e'] 1 := by
  refine ⟨show 0 < 2 by omega, rfl, gives_nestedFile, ?_⟩
  have hrun : (rename nestedFile 1 0 (letter 101 (by decide))).bind (fun after ↦
      (vnodeLookup (lookupDisk after) registered (absolutePath [['e'], ['f']])).map fun result ↦
        result.2.isNone) = some true := by decide +kernel
  obtain ⟨after, hrename, hlookup⟩ := Option.bind_eq_some_iff.mp hrun
  obtain ⟨⟨root, ptr⟩, hcall, hnone⟩ := Option.map_eq_some_iff.mp hlookup
  obtain rfl : ptr = none := Option.isNone_iff_eq_none.mp hnone
  refine ⟨after, hrename, ⟨root, hcall⟩, ?_⟩
  rintro ⟨-, -, hbelow⟩
  obtain ⟨_, _, _, hfound, -⟩ := hbelow [['f']] 2 (by simp) gives_nestedFile
  cases hcall.symm.trans hfound

end DionysOS.Filesystem.Diosfs
