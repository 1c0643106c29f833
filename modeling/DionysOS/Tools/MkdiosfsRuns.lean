import DionysOS.Tools.MkdiosfsDirectories

/-!
# Every directory lists what was created in it

`Built` says of an image, as the kernel sees it, that each of its directories holds the entries of the
creations so far in that directory, in their order. A creation keeps it: first the new inode joins
the table, then its entry joins the directory of the parent. The result over whole runs is that the
kernel lists exactly the entries created, and reads the inodes that the builder wrote.
-/

namespace DionysOS.Tools.Mkdiosfs

open Foundation.PartialMachine List Function Filesystem.Diosfs
open Filesystem.Diosfs (Context Dirent Extends Holds Inode MAX_FILENAME_LENGTH Stores directBlocks
  getDirectoryEntries typeCode)
open Filesystem.Vfs (NUM_BLOCKS_DIRECT)

/-- The entry that a creation leaves in its directory. -/
def Creation.entry (creation : Creation) : Dirent where
  name := creation.nameField
  inodeNumber := BitVec.ofNat 32 creation.number
  parentInodeNumber := BitVec.ofNat 32 creation.parent
  type := creation.type.setWidth 16
  deviceNumber := 0
  size := 0

def entriesOf (creations : List Creation) (directory : ℕ) : List Dirent :=
  (creations.filter fun creation ↦ creation.parent = directory).map Creation.entry

@[simp]
theorem entriesOf_nil (dir : ℕ) : entriesOf [] dir = [] := rfl

theorem entriesOf_append (first second : List Creation) (directory : ℕ) :
    entriesOf (first ++ second) directory =
      entriesOf first directory ++ entriesOf second directory := by
  simp [entriesOf]

theorem entriesOf_cons_self (creation : Creation) (rest : List Creation) :
    entriesOf (creation :: rest) creation.parent =
      creation.entry :: entriesOf rest creation.parent := by
  simp [entriesOf]

variable {creation : Creation} {number num parent : ℕ} {inode : Inode} {next : Context} {image : Image}

theorem entriesOf_cons_of_ne {directory : ℕ}
    (hne : creation.parent ≠ directory) (rest : List Creation) :
    entriesOf (creation :: rest) directory = entriesOf rest directory := by
  simp [entriesOf, hne]

/-- The inode carries the number, the parent, the type and the name of the creation. -/
structure Creation.Made (creation : Creation) (inode : Inode) : Prop where
  number : inode.inodeNumber = creation.number
  parent : inode.parentInodeNumber = creation.parent
  type : inode.type = creation.type.setWidth 16
  name : inode.name = creation.nameField

/-- The inode with this number is in use, and it is a directory. -/
def IsDirectory (fs : Context) (number : ℕ) : Prop :=
  fs.inodeBitmap number = true ∧ (fs.inodes number).type = typeCode .directory

/-- The directories hold what was created in them, in blocks of their own, and the inodes in use are
the ones that were written. -/
structure Built (super : Superblock) (fs : Context) (written : ℕ → Inode) (done : List Creation) :
    Prop where
  inTable : ∀ number, fs.inodeBitmap number = true → number < super.numInodes
  agrees : ∀ number, fs.inodeBitmap number = true → fs.inodes number = written number
  parents : ∀ creation ∈ done, fs.inodeBitmap creation.parent = true
  made : ∀ creation ∈ done, fs.inodeBitmap creation.number = true ∧
    creation.Made (fs.inodes creation.number)
  holds : ∀ number, IsDirectory fs number → Holds fs number (entriesOf done number) ∧
    (fs.inodes number).blockCount = ((entriesOf done number).length + 6) / 7
  apart : ∀ first second, IsDirectory fs first → IsDirectory fs second → first ≠ second →
    ∀ block ∈ directBlocks (fs.inodes first), block ∉ directBlocks (fs.inodes second)

variable {super : Superblock} {fs : Context} {written : ℕ → Inode} {done : List Creation}

theorem Built.entriesOf_eq_nil (hbuilt : Built super fs written done)
    (hclear : fs.inodeBitmap num = false) : entriesOf done num = [] := by
  rw [entriesOf, map_eq_nil_iff, filter_eq_nil_iff]
  intro creation hmem hpar
  rw [decide_eq_true_eq] at hpar
  have hused := hbuilt.parents creation hmem
  rw [hpar, hclear] at hused
  cases hused

def Blank (inode : Inode) : Prop :=
  inode.size = 0 ∧ inode.blockCount = 0 ∧ inode.blocks = Vector.replicate NUM_BLOCKS_DIRECT 0

theorem Blank.directBlocks_eq (hblank : Blank inode) : directBlocks inode = [] := by
  rw [directBlocks, hblank.2.1, take_zero]

theorem Blank.stores (hblank : Blank inode) (hdev : 0 < fs.numBlocks) :
    Stores fs inode [] := by
  refine ⟨hblank.1, by simp [hblank.2.1], by simp, fun block hblock ↦ ?_, ?_, fun block hblock ↦ ?_,
    fun idx hidx ↦ absurd hidx (by simp)⟩
  · rw [hblank.2.2] at hblock
    have hzero : block = 0 := eq_of_mem_replicate (Vector.toList_replicate ▸ hblock)
    rwa [hzero]
  · rw [hblank.directBlocks_eq]
    exact nodup_nil
  · rw [hblank.directBlocks_eq] at hblock
    cases hblock

theorem Built.addInode (hbuilt : Built super fs written done) (hblank : Blank inode)
    (hclear : fs.inodeBitmap inode.inodeNumber = false)
    (htable : inode.inodeNumber < super.numInodes) (hdev : 0 < fs.numBlocks) :
    Built super
      (Filesystem.Diosfs.writeInode (fs.setInodeBit inode.inodeNumber true) inode)
      (update written inode.inodeNumber inode) done := by
  set next := Filesystem.Diosfs.writeInode (fs.setInodeBit inode.inodeNumber true) inode with hnext
  have hself : next.inodes inode.inodeNumber = inode := update_self ..
  have hother : ∀ number, number ≠ inode.inodeNumber → next.inodes number = fs.inodes number :=
    fun number hne ↦ update_of_ne hne _ _
  have hold : ∀ number, fs.inodeBitmap number = true → number ≠ inode.inodeNumber := by
    rintro _ hused rfl
    rw [hclear] at hused
    cases hused
  have hused : ∀ number, fs.inodeBitmap number = true → next.inodeBitmap number = true :=
    fun number hused ↦ by simp [hnext, update_of_ne (hold number hused), hused]
  have hcases : ∀ number, next.inodeBitmap number = true →
      number = inode.inodeNumber ∨ fs.inodeBitmap number = true := by
    intro number hused
    by_cases hsame : number = inode.inodeNumber
    · exact .inl hsame
    · exact .inr (by simpa [hnext, update_of_ne hsame] using hused)
  -- an old directory is a directory of the old disk
  have hdir : ∀ number, IsDirectory next number → number ≠ inode.inodeNumber →
      IsDirectory fs number := fun number hdir hne ↦
    ⟨(hcases number hdir.1).resolve_left hne, hother number hne ▸ hdir.2⟩
  refine ⟨fun number hnum ↦ ?_, fun number hnum ↦ ?_,
    fun creation hmem ↦ hused _ (hbuilt.parents creation hmem), fun creation hmem ↦ ?_,
    fun number hnum ↦ ?_, fun first second hfirst hsecond hne ↦ ?_⟩
  · rcases hcases number hnum with rfl | hnum
    · exact htable
    · exact hbuilt.inTable number hnum
  · rcases hcases number hnum with rfl | hnum
    · rw [hself, update_self]
    · rw [hother number (hold number hnum), update_of_ne (hold number hnum),
        hbuilt.agrees number hnum]
  · obtain ⟨hlive, hmade⟩ := hbuilt.made creation hmem
    exact ⟨hused _ hlive, by rwa [hother _ (hold _ hlive)]⟩
  · by_cases hsame : number = inode.inodeNumber
    · subst hsame
      rw [hbuilt.entriesOf_eq_nil hclear, hself, hblank.2.1]
      exact ⟨⟨by rw [hself], hnum.2, by rw [hself]; exact hblank.stores hdev⟩, rfl⟩
    · obtain ⟨hholds, hcount⟩ := hbuilt.holds number (hdir number hnum hsame)
      exact ⟨hholds.writeInode_of_ne hsame _, by rw [hother number hsame, hcount]⟩
  · by_cases hfirstSame : first = inode.inodeNumber
    · rw [hfirstSame, hself, hblank.directBlocks_eq]
      intro block hblock
      cases hblock
    · by_cases hsecondSame : second = inode.inodeNumber
      · rw [hsecondSame, hself, hblank.directBlocks_eq]
        intro block _ hblock
        cases hblock
      · rw [hother first hfirstSame, hother second hsecondSame]
        exact hbuilt.apart first second (hdir first hfirst hfirstSame)
          (hdir second hsecond hsecondSame) hne

theorem IsDirectory.addInode (hdir : IsDirectory fs number)
    (hclear : fs.inodeBitmap inode.inodeNumber = false) :
    IsDirectory (Filesystem.Diosfs.writeInode (fs.setInodeBit inode.inodeNumber true) inode)
      number := by
  have hne : number ≠ inode.inodeNumber := by
    rintro rfl
    rw [hdir.1] at hclear
    cases hclear
  refine ⟨?_, ?_⟩
  · simpa [update_of_ne hne] using hdir.1
  · rw [writeInode_inodes, update_of_ne hne]
    exact hdir.2

theorem type_of_extends (hextends : Extends parent fs next)
    (hpar : (next.inodes parent).type = (fs.inodes parent).type)
    (hused : fs.inodeBitmap num = true) :
    (next.inodes num).type = (fs.inodes num).type := by
  by_cases hsame : num = parent
  · rw [hsame, hpar]
  · rw [hextends.inodes num hsame hused]

theorem Built.addEntry (hbuilt : Built super fs written done)
    (hextends : Extends creation.parent fs next) (hdevices : next.numBlocks = fs.numBlocks)
    (hbits : next.inodeBitmap = fs.inodeBitmap) (hdir : IsDirectory fs creation.parent)
    (hlive : fs.inodeBitmap creation.number = true)
    (hmade : creation.Made (fs.inodes creation.number))
    (hholds : Holds next creation.parent (entriesOf done creation.parent ++ [creation.entry]))
    {blocks} (hinode : next.inodes creation.parent =
      { fs.inodes creation.parent with
        size := (entriesOf done creation.parent).length + 1
        blockCount := ((entriesOf done creation.parent).length + 7) / 7
        blocks := blocks }) :
    Built super next (update written creation.parent (next.inodes creation.parent))
      (done ++ [creation]) := by
  have hother := hextends.inodes
  have hmadeNext : ∀ made : Creation, fs.inodeBitmap made.number = true →
      made.Made (fs.inodes made.number) → made.Made (next.inodes made.number) := by
    intro made hused hmade
    by_cases hsame : made.number = creation.parent
    · rw [hsame] at hmade ⊢
      rw [hinode]
      exact { hmade with }
    · rwa [hother _ hsame hused]
  have hisDirectory : ∀ number, IsDirectory next number → IsDirectory fs number := by
    rintro number ⟨hused, htype⟩
    rw [hbits] at hused
    exact ⟨hused, type_of_extends hextends (by rw [hinode]) hused ▸ htype⟩
  -- the directory grew by a block that no directory had
  have hown : ∀ number, number ≠ creation.parent → IsDirectory fs number →
      ∀ block ∈ directBlocks (fs.inodes number),
        block ∉ directBlocks (next.inodes creation.parent) := by
    intro number hne hnum block hblock hgrown
    rcases hextends.own block hgrown with hgrown | hclear
    · exact hbuilt.apart number _ hnum hdir hne block hblock hgrown
    · rw [(hbuilt.holds number hnum).1.stores.marked block hblock] at hclear
      cases hclear
  refine ⟨hbits ▸ hbuilt.inTable, fun number hnum ↦ ?_, fun made hmem ↦ ?_, fun made hmem ↦ ?_,
    fun number hnum ↦ ?_, fun first second hfirst hsecond hne block hblock hblock' ↦ ?_⟩
  · rw [hbits] at hnum
    by_cases hsame : number = creation.parent
    · rw [hsame, update_self]
    · rw [update_of_ne hsame, hother number hsame hnum, hbuilt.agrees number hnum]
  · rw [hbits]
    rcases mem_append.mp hmem with hmem | hmem
    · exact hbuilt.parents made hmem
    · rw [mem_singleton.mp hmem]
      exact hdir.1
  · rw [hbits]
    rcases mem_append.mp hmem with hmem | hmem
    · obtain ⟨hused, hmade⟩ := hbuilt.made made hmem
      exact ⟨hused, hmadeNext made hused hmade⟩
    · rw [mem_singleton.mp hmem]
      exact ⟨hlive, hmadeNext creation hlive hmade⟩
  · have hnum := hisDirectory number hnum
    by_cases hsame : number = creation.parent
    · subst hsame
      rw [entriesOf_append, entriesOf_cons_self, entriesOf_nil, hinode]
      exact ⟨hholds, by simp only [length_append, length_singleton]⟩
    · obtain ⟨hholdsOther, hcount⟩ := hbuilt.holds number hnum
      rw [entriesOf_append, entriesOf_cons_of_ne (Ne.symm hsame), entriesOf_nil, append_nil,
        hother number hsame hnum.1]
      exact ⟨hholdsOther.of_extends hextends hdevices hsame hnum.1
        (hbuilt.apart number _ hnum hdir hsame), hcount⟩
  · have hfirst := hisDirectory first hfirst
    have hsecond := hisDirectory second hsecond
    by_cases hfirstSame : first = creation.parent
    · have hsecondSame : second ≠ creation.parent := fun hsame ↦ hne (hfirstSame.trans hsame.symm)
      rw [hother second hsecondSame hsecond.1] at hblock'
      rw [hfirstSame] at hblock
      exact hown second hsecondSame hsecond block hblock' hblock
    · rw [hother first hfirstSame hfirst.1] at hblock
      by_cases hsecondSame : second = creation.parent
      · rw [hsecondSame] at hblock'
        exact hown first hfirstSame hfirst block hblock hblock'
      · rw [hother second hsecondSame hsecond.1] at hblock'
        exact hbuilt.apart first second hfirst hsecond hne block hblock hblock'

/-- What a creation is promised: a name that fits, a directory of the image, and from the allocators a
free inode of the table and, where the directory needs a block, a free data block. -/
def Promised (super : Superblock) (image : Image) (creation : Creation) : Prop :=
  let parent := readInode super image creation.parent
  creation.name.chars.length < MAX_FILENAME_LENGTH ∧
    (image.usedInodes creation.parent = true ∧ parent.type = DIOSFS_DIRECTORY.setWidth 16) ∧
    (image.usedInodes creation.number = false ∧ creation.number < 2 ^ 16 ∧
      creation.number < super.numInodes) ∧
    (parent.size % 7 = 0 → FreshBlock super image creation.block)

theorem fits_inode (creation : Creation) (hpar : parent < 2 ^ 16) :
    (creation.inode parent).Fits :=
  { Inode.fits_zero with
    inodeNumber := Nat.mod_lt _ (by decide)
    parentInodeNumber := hpar }

def join (super : Superblock) (image : Image) (creation : Creation) : Image :=
  writeInode super
    { image with usedInodes := Function.update image.usedInodes creation.number true }
    (creation.inode creation.parent)

theorem join_spec (harranged : super.Arranged)
    (hbuilt : Built super (mounted super image) image.written done)
    (hprom : Promised super image creation) (hpar : creation.parent < 2 ^ 16) :
    let joined := mounted super (join super image creation)
    Built super joined (join super image creation).written done ∧
      (∀ num, IsDirectory (mounted super image) num → IsDirectory joined num) ∧
      joined.inodeBitmap creation.number = true ∧
      creation.Made (joined.inodes creation.number) := by
  obtain ⟨-, -, ⟨hclear, hshort, htable⟩, -⟩ := hprom
  have hnum : (creation.inode creation.parent).inodeNumber = creation.number :=
    Nat.mod_eq_of_lt hshort
  have hjoined : mounted super (join super image creation) = Filesystem.Diosfs.writeInode
      ((mounted super image).setInodeBit (creation.inode creation.parent).inodeNumber true)
      (creation.inode creation.parent) := by
    rw [join, mounted_writeInode harranged (fits_inode creation hpar) (by rwa [hnum]), hnum]
    rfl
  simp only [hjoined]
  refine ⟨hbuilt.addInode ⟨rfl, rfl, rfl⟩ (by rwa [hnum]) (by rwa [hnum])
      (Nat.sub_pos_of_lt harranged.blockStart_lt),
    fun num hdir ↦ hdir.addInode (by rwa [hnum]), ?_, ?_⟩
  · rw [hnum]
    exact update_self ..
  · rw [Filesystem.Diosfs.writeInode_inodes, hnum, update_self]
    exact ⟨hnum, rfl, rfl, rfl⟩

theorem create_spec (harranged : super.Arranged)
    (hbuilt : Built super (mounted super image) image.written done)
    (hprom : Promised super image creation)
    (hfew : (entriesOf done creation.parent).length < 69) :
    ∃ next, create super image creation = some (next, creation.number) ∧
      Built super (mounted super next) next.written (done ++ [creation]) ∧
      ∀ number, IsDirectory (mounted super image) number →
        IsDirectory (mounted super next) number := by
  obtain ⟨hname, ⟨hused, htype⟩, ⟨-, hshort, -⟩, hblock⟩ := id hprom
  rw [← inodes_mounted] at htype hblock
  obtain ⟨hholds, -⟩ := hbuilt.holds creation.parent ⟨hused, htype⟩
  have hpar : creation.parent < 2 ^ 16 := by
    have hfits := (@fits_mounted super image creation.parent).inodeNumber
    rwa [hholds.inodeNumber] at hfits
  obtain ⟨hbuiltJoined, hdirectories, hlive, hmade⟩ := join_spec harranged hbuilt hprom hpar
  have hdir := hdirectories creation.parent ⟨hused, htype⟩
  obtain ⟨hholdsJoined, hcount⟩ := hbuiltJoined.holds creation.parent hdir
  let read : Inode :=
    { readInode super image creation.parent with
      size := (readInode super image creation.parent).size + 1 }
  have hreadNumber : read.inodeNumber = creation.parent := by
    rw [← hholds.inodeNumber, inodes_mounted]
  have hreadSize : read.size ≠ DIOSFS_MAX_FILES_IN_DIRECTORY := by
    have hsize := hholds.stores.size
    rw [inodes_mounted] at hsize
    simp only [read, hsize, show DIOSFS_MAX_FILES_IN_DIRECTORY = 71 from rfl]
    omega
  obtain ⟨next, blocks, hwrite, hgrown, hholdsNext, hextends, hbits, hwritten⟩ :=
    @writeDirent_spec super (join super image creation) _ creation.block _ harranged
      hbuiltJoined.inTable hdir.1 hholdsJoined (by omega) hcount
      (fun hfull ↦ hblock (by rwa [hholds.stores.size])) read hreadNumber hreadSize creation.entry
  have hbuiltNext :=
    hbuiltJoined.addEntry hextends rfl hbits hdir hlive hmade hholdsNext hgrown
  -- the parent's inode is written once more, as it is
  let parent := (mounted super next).inodes creation.parent
  have hself : mounted super (writeInode super next parent) = mounted super next := by
    rw [mounted_writeInode harranged (fits_mounted _ _)
      (by rw [hholdsNext.inodeNumber]; exact hbuiltJoined.inTable _ hdir.1)]
    exact writeInode_self (by rw [hholdsNext.inodeNumber])
  refine ⟨writeInode super next parent, ?_, ?_, fun number hnum ↦ ?_⟩
  · have hnum : (creation.inode creation.parent).inodeNumber = creation.number :=
      Nat.mod_eq_of_lt hshort
    have hentry : direntOf (creation.inode creation.parent) = creation.entry := by
      rw [direntOf, hnum]
      rfl
    have hcreate : create super image creation =
        (writeDirent super (writeInode super
            { image with usedInodes := update image.usedInodes creation.number true }
            (creation.inode read.inodeNumber)) read (direntOf (creation.inode read.inodeNumber))
          creation.block).bind fun result ↦
            some (writeInode super result.1 result.2,
              (creation.inode read.inodeNumber).inodeNumber) := by
      simp only [create, if_neg (not_le.mpr hname)]
      rfl
    rw [hcreate, hreadNumber, hentry]
    exact (congrArg (fun result ↦ Option.bind result _) hwrite).trans (by rw [hnum]; rfl)
  · rw [hself]
    have hlast : (writeInode super next parent).written =
        update (join super image creation).written creation.parent parent := by
      simp only [parent, writeInode, hholdsNext.inodeNumber, hwritten, update_idem]
    rwa [hlast]
  · rw [hself]
    have hjoined := hdirectories number hnum
    exact ⟨show next.usedInodes number = true by rw [hbits]; exact hjoined.1,
      (type_of_extends hextends (by rw [hgrown]) hjoined.1).trans hjoined.2⟩

theorem built_makeRoot (harranged : super.Arranged) {root : ℕ} (hshort : root < 2 ^ 16)
    (htable : root < super.numInodes) :
    Built super (mounted super (makeRoot super root)) (makeRoot super root).written [] ∧
      IsDirectory (mounted super (makeRoot super root)) root := by
  let empty : Image := ⟨fun _ ↦ 0, fun _ ↦ false, fun _ ↦ false, fun _ ↦ Inode.zero⟩
  have hempty : Built super (mounted super empty) empty.written [] := by
    refine ⟨?_, ?_, ?_, ?_, ?_, ?_⟩ <;> simp [IsDirectory, mounted, empty]
  have hnum : (rootInode root).inodeNumber = root := Nat.mod_eq_of_lt hshort
  have hfits : (rootInode root).Fits :=
    { Inode.fits_zero with
      inodeNumber := Nat.mod_lt _ (by decide)
      refcount := show 1 < 2 ^ 16 by decide }
  have hroot : mounted super (makeRoot super root) = Filesystem.Diosfs.writeInode
      ((mounted super empty).setInodeBit (rootInode root).inodeNumber true) (rootInode root) := by
    rw [makeRoot, mounted_writeInode harranged hfits (by rwa [hnum]), hnum]
    rfl
  rw [hroot]
  refine ⟨hempty.addInode ⟨rfl, rfl, rfl⟩ rfl (by rwa [hnum])
    (Nat.sub_pos_of_lt harranged.blockStart_lt), ?_, ?_⟩
  · rw [hnum]
    exact update_self ..
  · rw [writeInode_inodes, hnum, update_self]
    rfl

theorem run_built (harranged : super.Arranged) :
    ∀ (creations : List Creation) {done : List Creation} {image : Image},
      Built super (mounted super image) image.written done →
      (∀ dir, (entriesOf (done ++ creations) dir).length < 70) →
      Guarded (create super) (Promised super) image creations →
      ∃ final, run (create super) image creations = some (final, creations.map Creation.number) ∧
        Built super (mounted super final) final.written (done ++ creations) ∧
        ∀ number, IsDirectory (mounted super image) number → IsDirectory (mounted super final) number
  | [], done, image, hbuilt, _, _ =>
      ⟨image, rfl, by rwa [append_nil], fun _ hdir ↦ hdir⟩
  | creation :: creations, done, image, hbuilt, hfew, hguarded => by
      have hroom := hfew creation.parent
      rw [entriesOf_append, entriesOf_cons_self, length_append, length_cons] at hroom
      obtain ⟨next, hcreate, hnext, hdirectories⟩ :=
        create_spec harranged hbuilt hguarded.1 (by omega)
      have hsplit : done ++ [creation] ++ creations = done ++ creation :: creations := by simp
      obtain ⟨final, hfinal, hbuiltFinal, hdirectoriesFinal⟩ := run_built harranged creations hnext
        (by rwa [hsplit]) (hguarded.2 next _ hcreate)
      exact ⟨final, run_cons_of_step hcreate hfinal, hsplit ▸ hbuiltFinal,
        fun number hnum ↦ hdirectoriesFinal number (hdirectories number hnum)⟩

/-- **The builder and the kernel agree on directories.** After creations with fewer than 70 entries in
each directory, the kernel lists in every directory the entries created there, in creation order, and
reads under every number the inode that the builder wrote. -/
theorem run_listed {megabytes root : ℕ} {laid : Layout} (hlaid : layout megabytes = some laid)
    (hroot : root < 2 ^ 16 ∧ root < laid.super.numInodes) {creations : List Creation}
    (hpromised : Guarded (create laid.super) (Promised laid.super) (makeRoot laid.super root) creations)
    (hfew : ∀ directory,
      (creations.filter fun creation ↦ creation.parent = directory).length < 70) :
    ∃ final, run (create laid.super) (makeRoot laid.super root) creations =
        some (final, creations.map Creation.number) ∧
      (∀ directory, (directory = root ∨ ∃ creation ∈ creations,
          creation.number = directory ∧ creation.type = DIOSFS_DIRECTORY) →
        ∀ childrenSize, NUM_BLOCKS_DIRECT * DIOSFS_BLOCKSIZE ≤ childrenSize →
          getDirectoryEntries (mounted laid.super final) directory childrenSize =
            some (.ok (entriesOf creations directory))) ∧
      ∀ creation ∈ creations,
        Filesystem.Diosfs.readInode laid.super.inodeStartPointer (blockBytes final.disk)
            creation.number = final.written creation.number ∧
          creation.Made (final.written creation.number) := by
  have harranged := arranged_layout hlaid
  obtain ⟨hstart, hrootDirectory⟩ := built_makeRoot harranged hroot.1 hroot.2
  have hlen : ∀ directory, (entriesOf creations directory).length < 70 := fun directory ↦ by
    rw [entriesOf, length_map]
    exact hfew directory
  obtain ⟨final, hrun, hbuilt, hdirectories⟩ := run_built harranged creations hstart hlen hpromised
  rw [nil_append] at hbuilt
  refine ⟨final, hrun, fun directory hdir childrenSize hchildren ↦ ?_, fun creation hmem ↦ ?_⟩
  · have hisDirectory : IsDirectory (mounted laid.super final) directory := by
      rcases hdir with rfl | ⟨creation, hmem, rfl, htype⟩
      · exact hdirectories _ hrootDirectory
      · obtain ⟨hlive, hmade⟩ := hbuilt.made creation hmem
        exact ⟨hlive, by rw [hmade.type, htype]; rfl⟩
    obtain ⟨hholds, hcount⟩ := hbuilt.holds directory hisDirectory
    have hfew := hlen directory
    have hchildren : 10240 ≤ childrenSize := hchildren
    have hblocks : ((mounted laid.super final).inodes directory).blockCount *
        DIOSFS_BLOCKSIZE ≤ childrenSize := by
      rw [hcount, show DIOSFS_BLOCKSIZE = 1024 from rfl]
      omega
    have hentries : ((mounted laid.super final).inodes directory).size *
        DIRECTORY_ENTRY_SIZE ≤ childrenSize := by
      rw [hholds.stores.size, show DIRECTORY_ENTRY_SIZE = 144 from rfl]
      omega
    rw [getDirectoryEntries_eq hholds.type (hholds.stores.size ▸ hfew)
      hholds.stores.onDevice hblocks hentries, hholds.stores.listing_eq hfew]
  · obtain ⟨hlive, hmade⟩ := hbuilt.made creation hmem
    have hagrees := hbuilt.agrees creation.number hlive
    exact ⟨hagrees, hagrees ▸ hmade⟩

instance (super : Superblock) (image : Image) (block : ℕ) : Decidable (FreshBlock super image block) :=
  instDecidableAnd

instance (super : Superblock) (image : Image) (creation : Creation) :
    Decidable (Promised super image creation) :=
  inferInstanceAs (Decidable (_ ∧ (_ ∧ _) ∧ (_ ∧ _ ∧ _) ∧ (_ → _)))

def layout1 : Layout :=
  ⟨⟨1024, 104, 992, 0, 0⟩, superblock ⟨1024, 104, 992, 0, 0⟩ 0, 1101004⟩

/-- A directory `d` under the root, and a file `f` in it. -/
def directoryWithFile : List Creation :=
  [⟨0, ⟨[0x64], by decide⟩, DIOSFS_DIRECTORY, 1, 0⟩, ⟨1, ⟨[0x66], by decide⟩, DIOSFS_REG_FILE, 2, 1⟩]

theorem run_listed_directoryWithFile :
    layout 1 = some layout1 ∧
    Guarded (create layout1.super) (Promised layout1.super) (makeRoot layout1.super 0)
      directoryWithFile ∧
    ∃ final, run (create layout1.super) (makeRoot layout1.super 0) directoryWithFile =
        some (final, [1, 2]) ∧
      getDirectoryEntries (mounted layout1.super final) 1 10240 =
        some (.ok (entriesOf directoryWithFile 1)) ∧
      (entriesOf directoryWithFile 1).map (fun entry ↦ entry.inodeNumber.toNat) = [2] := by
  have hlaid : layout 1 = some layout1 := by decide
  have hprom : Guarded (create layout1.super) (Promised layout1.super)
      (makeRoot layout1.super 0) directoryWithFile := by
    decide +kernel
  obtain ⟨final, hrun, hlisted, -⟩ := run_listed hlaid (by decide) hprom fun _ ↦
    (length_filter_le _ _).trans_lt (by decide)
  exact ⟨hlaid, hprom, final, hrun,
    hlisted 1 (.inr ⟨_, mem_cons_self, rfl, rfl⟩) 10240 (by decide), by decide⟩

end DionysOS.Tools.Mkdiosfs
