import DionysOS.Filesystem.PathWalk

/-!
# Path resolution after a remount

After `diosfs_register_filesystem` no vnode of the file system is cached, and every vnode of a walk
is made from the directory entry that names it. So the walk is one over entries: `Leads` says that
it follows a list of names exactly, from one entry to another.

`TreeDisk` is a disk of which the directories form a tree. In a tree an inode has one path, so that no
walk comes to a directory twice.
-/

namespace DionysOS.Filesystem.Vfs

open Definitions.Strings List

/-- The root vnode with the root that `diosfs_register_filesystem` makes mounted on it. -/
def registered : Vnode :=
  .mk ⟨[], .directory, 0, .vnodeRoot, 0, true, false⟩ []
    (some (.mk ⟨['/'], .directory, ROOT_INODE, .diosfs, 0, false, false⟩ [] none))

def rootEntry : DirectoryEntry := ⟨['/'], ROOT_INODE, .directory, 0⟩

/-- Names that `safe_strcmp` does not tell apart. -/
def Comparable (first second : List Char) : Prop := first <+: second ∨ second <+: first

instance (first second : List Char) : Decidable (Comparable first second) :=
  instDecidableOr

theorem Comparable.refl (name : List Char) : Comparable name name := .inl (prefix_refl name)

theorem Comparable.symm {first second : List Char} (h : Comparable first second) :
    Comparable second first := Or.symm h

/-- The entry that the code takes for a component in the directory of an entry. A size in the entry
passes for a number of cached children, and the disk is not read. -/
def firstEntry (disk : Disk) (entry : DirectoryEntry) (name : List Char) : Option DirectoryEntry :=
  if entry.size % 2 ^ 8 = 0 then
    ((diskEntries disk entry.inodeNumber).take VNODE_MAX_DIRECTORY_ENTRIES).find? fun child ↦
      safeStrcmp child.name name VFS_MAX_NAME_LENGTH
  else none

/-- The walk from an entry follows the names exactly, and ends at `target`. -/
def Leads (disk : Disk) : DirectoryEntry → List (List Char) → DirectoryEntry → Prop
  | entry, [], target => entry = target
  | entry, name :: names, target => name.length < VFS_MAX_NAME_LENGTH ∧ entry.type = .directory ∧
      ∃ child, firstEntry disk entry name = some child ∧ child.name = name ∧
        Leads disk child names target

variable {child : DirectoryEntry}

section Walk

variable {disk : Disk} {entry target : DirectoryEntry} {name : List Char} {names : List (List Char)}

theorem cachedChildren_entry (entry : DirectoryEntry) :
    cachedChildren (entered (diosfsDirectoryEntryToVnode entry)) = [] := by
  have hchildren : (entered (diosfsDirectoryEntryToVnode entry)).vnodeChildren = [] := rfl
  rw [cachedChildren, hchildren, take_nil, filterMap_nil]

theorem firstComparable_entry (htype : entry.type = .directory) :
    firstComparable disk (diosfsDirectoryEntryToVnode entry) name =
      (firstEntry disk entry name).map diosfsDirectoryEntryToVnode := by
  by_cases hsize : entry.size % 2 ^ 8 = 0
  · have hvisible : visible disk (diosfsDirectoryEntryToVnode entry) =
        ((diskEntries disk entry.inodeNumber).take VNODE_MAX_DIRECTORY_ENTRIES).map
          diosfsDirectoryEntryToVnode :=
      if_pos ⟨rfl, (if_pos htype).trans hsize⟩
    rw [firstComparable, hvisible, firstEntry, if_pos hsize, find?_map]
    rfl
  · have hvisible : visible disk (diosfsDirectoryEntryToVnode entry) = [] :=
      (if_neg fun h ↦ hsize ((if_pos htype).symm.trans h.2)).trans (cachedChildren_entry entry)
    rw [firstComparable, hvisible, firstEntry, if_neg hsize]
    rfl

theorem size_of_firstEntry
    (hfirst : firstEntry disk entry name = some child) : entry.size % 2 ^ 8 = 0 := by
  by_contra hsize
  rw [firstEntry, if_neg hsize] at hfirst
  cases hfirst

theorem readable_entry (hname : name.length < VFS_MAX_NAME_LENGTH)
    (hsize : entry.size % 2 ^ 8 = 0) : Readable (diosfsDirectoryEntryToVnode entry) name := by
  refine ⟨hname, fun htype ↦ ?_⟩
  have hnone : (entered (diosfsDirectoryEntryToVnode entry)).numChildren = 0 :=
    (if_pos htype).trans hsize
  rw [hnone]
  exact Nat.zero_le _

theorem prefixWalk_cons (hname : name.length < VFS_MAX_NAME_LENGTH)
    (htype : entry.type = .directory) (hfirst : firstEntry disk entry name = some child) :
    prefixWalk disk (diosfsDirectoryEntryToVnode entry) (name :: names) =
      (prefixWalk disk (diosfsDirectoryEntryToVnode child) names).behind child.name := by
  have htype' : (diosfsDirectoryEntryToVnode entry).vnodeType = .directory := htype
  rw [prefixWalk, if_pos (readable_entry hname (size_of_firstEntry hfirst)), if_pos htype',
    firstComparable_entry htype, hfirst]
  rfl

theorem prefixWalk_eq_found_iff : ∀ {names : List (List Char)} {entry : DirectoryEntry}
    {reached : Vnode}, prefixWalk disk (diosfsDirectoryEntryToVnode entry) names =
        .found names reached ↔
      ∃ target, Leads disk entry names target ∧ diosfsDirectoryEntryToVnode target = reached
  | [], entry, reached => by simp [prefixWalk, Leads]
  | name :: names, entry, reached => by
      constructor
      · intro hwalk
        unfold prefixWalk at hwalk
        split at hwalk
        · rename_i hreadable
          split at hwalk
          · rename_i htype
            rw [firstComparable_entry htype] at hwalk
            cases hfirst : firstEntry disk entry name with
            | none => simp [hfirst] at hwalk
            | some child =>
              simp only [hfirst, Option.map_some] at hwalk
              cases hrest : prefixWalk disk (diosfsDirectoryEntryToVnode child) names with
              | fault => simp [hrest, Outcome.behind] at hwalk
              | missing => simp [hrest, Outcome.behind] at hwalk
              | found names' reached' =>
                simp only [hrest, Outcome.behind, Outcome.found.injEq, cons.injEq] at hwalk
                obtain ⟨⟨hname, rfl⟩, rfl⟩ := hwalk
                obtain ⟨target, hleads, htarget⟩ := prefixWalk_eq_found_iff.mp hrest
                exact ⟨target, ⟨hreadable.1, htype, child, hfirst, hname, hleads⟩, htarget⟩
          · cases hwalk
        · cases hwalk
      · rintro ⟨target, ⟨hlen, htype, child, hfirst, hname, hleads⟩, htarget⟩
        rw [prefixWalk_cons hlen htype hfirst,
          prefixWalk_eq_found_iff.mpr ⟨target, hleads, htarget⟩, Outcome.behind, hname]

theorem Leads.prefixWalk_missing (hleads : Leads disk entry names target)
    (rest : List (List Char)) :
    prefixWalk disk (diosfsDirectoryEntryToVnode entry) (names ++ rest) = .missing ↔
      prefixWalk disk (diosfsDirectoryEntryToVnode target) rest = .missing := by
  induction names generalizing entry with
  | nil =>
    obtain rfl : entry = target := hleads
    rfl
  | cons name names ih =>
    obtain ⟨hlen, htype, child, hfirst, -, hrest⟩ := hleads
    have hbehind : ∀ outcome : Outcome,
        outcome.behind child.name = .missing ↔ outcome = .missing := by
      rintro (_ | _ | _) <;> simp [Outcome.behind]
    rw [cons_append, prefixWalk_cons hlen htype hfirst, hbehind, ih hrest]

theorem leads_append {rest : List (List Char)} : ∀ {names : List (List Char)}
    {entry target : DirectoryEntry}, Leads disk entry (names ++ rest) target ↔
      ∃ mid, Leads disk entry names mid ∧ Leads disk mid rest target
  | [], entry, target => by simp [Leads]
  | name :: names, entry, target => by
      simp only [cons_append, Leads, leads_append]
      constructor
      · rintro ⟨hlen, htype, child, hfirst, hname, mid, hleads, hrest⟩
        exact ⟨mid, ⟨hlen, htype, child, hfirst, hname, hleads⟩, hrest⟩
      · rintro ⟨mid, ⟨hlen, htype, child, hfirst, hname, hleads⟩, hrest⟩
        exact ⟨hlen, htype, child, hfirst, hname, mid, hleads, hrest⟩

theorem mem_of_firstEntry (hfirst : firstEntry disk entry name = some child) :
    child ∈ diskEntries disk entry.inodeNumber := by
  unfold firstEntry at hfirst
  split at hfirst
  · exact mem_of_mem_take (mem_of_find?_eq_some hfirst)
  · cases hfirst

theorem Leads.congr {other : Disk} (hleads : Leads disk entry names target)
    (hsame : ∀ before after mid, names = before ++ after → after ≠ [] →
      Leads disk entry before mid → mid.type = .directory →
      diskEntries other mid.inodeNumber = diskEntries disk mid.inodeNumber) :
    Leads other entry names target := by
  induction names generalizing entry with
  | nil => exact hleads
  | cons name names ih =>
    obtain ⟨hlen, htype, child, hfirst, hname, hrest⟩ := hleads
    have hentries := hsame [] (name :: names) entry rfl (by simp) rfl htype
    refine ⟨hlen, htype, child, by rw [firstEntry, hentries]; exact hfirst, hname,
      ih hrest fun before after mid hsplit hafter hmiddle ↦ ?_⟩
    exact hsame (name :: before) after mid (by rw [hsplit]; rfl) hafter
      ⟨hlen, htype, child, hfirst, hname, hmiddle⟩

end Walk

/-- The directories of a disk: each holds one, and entries of directories name directories. -/
structure ClosedDisk (disk : Disk) (directories : Set ℕ) : Prop where
  root : ROOT_INODE ∈ directories
  holds : ∀ number ∈ directories, HoldsDirectory (disk number)
  closed : ∀ number ∈ directories, ∀ entry ∈ diskEntries disk number, entry.type = .directory →
    entry.inodeNumber ∈ directories

/-- The directories form a tree that a lookup can work with: they are small, the entries have names,
of which none is a prefix of another one in the same directory, and an inode has one entry, the root
none. -/
structure TreeDisk (disk : Disk) (directories : Set ℕ) : Prop extends
    ClosedDisk disk directories where
  few : ∀ number ∈ directories, (disk number).size ≤ VNODE_MAX_DIRECTORY_ENTRIES
  name : ∀ number ∈ directories, ∀ entry ∈ diskEntries disk number,
    entry.name ≠ [] ∧ '/' ∉ entry.name ∧ entry.name.length < VFS_MAX_NAME_LENGTH
  apart : ∀ number ∈ directories, (diskEntries disk number).Pairwise fun first second ↦
    ¬ Comparable first.name second.name
  unnamed : ∀ number ∈ directories, ∀ entry ∈ diskEntries disk number,
    entry.inodeNumber ≠ ROOT_INODE
  unique : ∀ number ∈ directories, ∀ other ∈ directories, ∀ first ∈ diskEntries disk number,
    ∀ second ∈ diskEntries disk other, first.inodeNumber = second.inodeNumber →
      number = other ∧ first = second

/-- An entry that names a directory of the tree if it names a directory. -/
def Live (directories : Set ℕ) (entry : DirectoryEntry) : Prop :=
  entry.type = .directory → entry.inodeNumber ∈ directories

section Trees

variable {disk : Disk} {directories : Set ℕ} {names : List (List Char)}

theorem ClosedDisk.live_root (hclosed : ClosedDisk disk directories) : Live directories rootEntry :=
  fun _ ↦ hclosed.root

variable {entry : DirectoryEntry}

theorem ClosedDisk.live_of_mem (hclosed : ClosedDisk disk directories)
    (hlive : Live directories entry) (htype : entry.type = .directory)
    (hchild : child ∈ diskEntries disk entry.inodeNumber) : Live directories child :=
  hclosed.closed _ (hlive htype) child hchild

theorem ClosedDisk.live_of_leads (hclosed : ClosedDisk disk directories) :
    ∀ {names : List (List Char)} {entry target : DirectoryEntry}, Leads disk entry names target →
      Live directories entry → Live directories target
  | [], _, _, hleads, hlive => hleads ▸ hlive
  | _ :: _, _, _, ⟨_, htype, _, hfirst, _, hrest⟩, hlive =>
      hclosed.live_of_leads hrest (hclosed.live_of_mem hlive htype (mem_of_firstEntry hfirst))

section

variable (hclosed : ClosedDisk disk directories)
include hclosed

theorem ClosedDisk.soundVnodes :
    SoundVnodes disk fun vnode ↦
      ∃ entry, Live directories entry ∧ vnode = diosfsDirectoryEntryToVnode entry := by
  refine ⟨?_, ?_⟩
  · rintro _ ⟨entry, hlive, rfl⟩
    refine .intro (fun htype _ ↦ ⟨rfl, hclosed.holds _ (hlive htype), rfl⟩) (fun _ hchild ↦ ?_)
      (fun _ h ↦ ?_) (fun _ h ↦ ?_)
    · cases hchild
    · cases h
    · cases h
  · rintro _ child ⟨entry, hlive, rfl⟩ htype hchild
    unfold visible at hchild
    split at hchild
    · obtain ⟨found, hfound, rfl⟩ := mem_map.mp hchild
      exact ⟨found, hclosed.live_of_mem hlive htype (mem_of_mem_take hfound), rfl⟩
    · rw [cachedChildren_entry] at hchild
      cases hchild

theorem ClosedDisk.vnodeLookup_spec (hnames : Components names) :
    HasOutcome (vnodeLookup disk registered (absolutePath names))
      registered (prefixWalk disk (diosfsDirectoryEntryToVnode rootEntry) names) := by
  have hvnodes := hclosed.soundVnodes
  have hroot : ∃ entry, Live directories entry ∧
      entered registered = diosfsDirectoryEntryToVnode entry :=
    ⟨rootEntry, hclosed.live_root, rfl⟩
  have hinner := hvnodes.tree hroot
  have hsound : SoundTree disk registered := by
    refine .intro (fun _ h ↦ ?_) (fun _ hchild ↦ ?_) (fun mounted h ↦ ?_) (fun mounted h ↦ ?_)
    · cases h
    · cases hchild
    · cases h
      exact ⟨rfl, rfl, rfl⟩
    · cases h
      exact hinner
  have hspec := Vfs.vnodeLookup_spec hvnodes hsound hroot rfl hnames
  obtain ⟨name, rest, rfl⟩ := exists_cons_of_ne_nil hnames.1
  rwa [← prefixWalk_entered hsound rfl] at hspec

/-- `vnode_lookup` in the registered file system returns a vnode with this inode number, and the
names on the way to it are those of the path. -/
def Gives (disk : Disk) (names : List (List Char)) (number : ℕ) : Prop :=
  ∃ after pointer reached,
    vnodeLookup disk registered (absolutePath names) = some (after, some pointer) ∧
      follow after pointer.position = some (names, reached) ∧ reached.vnodeInodeNumber = number

/-- `vnode_lookup` in the registered file system returns `NULL`. -/
def GivesNull (disk : Disk) (names : List (List Char)) : Prop :=
  ∃ after, vnodeLookup disk registered (absolutePath names) = some (after, none)

theorem ClosedDisk.gives_iff (hnames : Components names) {number : ℕ} : Gives disk names number ↔
      ∃ target, Leads disk rootEntry names target ∧ target.inodeNumber = number := by
  have hspec := hclosed.vnodeLookup_spec hnames
  constructor
  · rintro ⟨after, pointer, reached, hcall, hfollow, hnum⟩
    cases houtcome : prefixWalk disk (diosfsDirectoryEntryToVnode rootEntry) names with
    | fault =>
      rw [houtcome, hcall] at hspec
      cases hspec
    | missing =>
      rw [houtcome, hcall] at hspec
      obtain ⟨_, h⟩ := hspec
      cases h
    | found reachedNames reached' =>
      rw [houtcome, hcall] at hspec
      obtain ⟨_, _, hsome, -, hfollow', -⟩ := hspec
      cases hsome
      obtain ⟨rfl, rfl⟩ : names = reachedNames ∧ reached = reached' := by
        simpa [hfollow] using hfollow'
      obtain ⟨target, hleads, htarget⟩ := prefixWalk_eq_found_iff.mp houtcome
      refine ⟨target, hleads, ?_⟩
      rw [← htarget] at hnum
      exact hnum
  · rintro ⟨target, hleads, hnum⟩
    rw [prefixWalk_eq_found_iff.mpr ⟨target, hleads, rfl⟩] at hspec
    obtain ⟨after, pointer, hcall, -, hfollow, -⟩ := hspec
    exact ⟨after, pointer, _, hcall, hfollow, hnum⟩

theorem ClosedDisk.givesNull_iff (hnames : Components names) : GivesNull disk names ↔
      prefixWalk disk (diosfsDirectoryEntryToVnode rootEntry) names = .missing := by
  have hspec := hclosed.vnodeLookup_spec hnames
  constructor
  · rintro ⟨after, hcall⟩
    cases houtcome : prefixWalk disk (diosfsDirectoryEntryToVnode rootEntry) names with
    | fault =>
      rw [houtcome, hcall] at hspec
      cases hspec
    | missing => rfl
    | found reachedNames reached =>
      rw [houtcome, hcall] at hspec
      obtain ⟨_, _, hsome, -⟩ := hspec
      cases hsome
  · intro houtcome
    rw [houtcome] at hspec
    exact hspec

theorem ClosedDisk.leads_concat {name : List Char}
    {target : DirectoryEntry} (hleads : Leads disk rootEntry (names ++ [name]) target) :
    ∃ parent, Leads disk rootEntry names parent ∧ parent.type = .directory ∧
      parent.inodeNumber ∈ directories ∧ target ∈ diskEntries disk parent.inodeNumber ∧
      target.name = name := by
  obtain ⟨parent, hpar, -, htype, child, hfirst, hname, rfl⟩ := leads_append.mp hleads
  exact ⟨parent, hpar, htype, hclosed.live_of_leads hpar hclosed.live_root htype,
    mem_of_firstEntry hfirst, hname⟩

end

theorem TreeDisk.leads_unique (htree : TreeDisk disk directories) {other : List (List Char)}
    {first second : DirectoryEntry} (hfirst : Leads disk rootEntry names first)
    (hsecond : Leads disk rootEntry other second)
    (hsame : first.inodeNumber = second.inodeNumber) : names = other := by
  induction names using reverseRecOn generalizing other first second with
  | nil =>
    obtain rfl : rootEntry = first := hfirst
    cases other using reverseRecOn with
    | nil => rfl
    | append_singleton other name =>
      obtain ⟨parent, -, -, hmem, hentry, -⟩ := htree.leads_concat hsecond
      exact absurd hsame.symm (htree.unnamed _ hmem second hentry)
  | append_singleton names name ih =>
    obtain ⟨parent, hpar, -, hmem, hentry, rfl⟩ := htree.leads_concat hfirst
    cases other using reverseRecOn with
    | nil =>
      obtain rfl : rootEntry = second := hsecond
      exact absurd hsame (htree.unnamed _ hmem first hentry)
    | append_singleton other name =>
      obtain ⟨parent', hpar', -, hmem', hentry', rfl⟩ := htree.leads_concat hsecond
      obtain ⟨hdir, rfl⟩ := htree.unique _ hmem _ hmem' first hentry second hentry' hsame
      rw [ih hpar hpar' hdir]

theorem TreeDisk.firstEntry_of_mem (htree : TreeDisk disk directories)
    (hmem : entry.inodeNumber ∈ directories) (hsize : entry.size % 2 ^ 8 = 0)
    (hchild : child ∈ diskEntries disk entry.inodeNumber) :
    firstEntry disk entry child.name = some child := by
  obtain ⟨-, -, hlen⟩ := htree.name _ hmem child hchild
  obtain ⟨before, after, hsplit⟩ := append_of_mem hchild
  have hfew : (diskEntries disk entry.inodeNumber).length ≤ VNODE_MAX_DIRECTORY_ENTRIES :=
    (length_take_le _ _).trans (htree.few _ hmem)
  have hapart := htree.apart _ hmem
  rw [firstEntry, if_pos hsize, take_of_length_le hfew]
  rw [hsplit] at hapart ⊢
  refine find?_eq_some_iff_append.mpr
    ⟨safeStrcmp_self _ _, before, after, rfl, fun earlier hearlier ↦ ?_⟩
  have hnot := (pairwise_append.mp hapart).2.2 earlier hearlier child mem_cons_self
  rwa [Bool.not_eq_true', ← Bool.not_eq_true, safeStrcmp_iff hlen.le]

end Trees

end DionysOS.Filesystem.Vfs
