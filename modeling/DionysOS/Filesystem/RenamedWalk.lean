import DionysOS.Filesystem.RemountWalk

/-!
# Lookups after an entry is exchanged

`Renamed` says that one entry of a directory gives way to another one of the same inode, with another
name and another size. `Renamed.survives_iff` says what this does to lookups after a remount: whether
the old path is gone, the new one is there, and the paths below are still there. A walk past the
exchanged entry is what it was.
-/

namespace DionysOS.Filesystem.Vfs

open Definitions.Strings List Option

/-- Entry `index` of a directory is exchanged, and the other directories keep their entries. -/
structure Renamed (disk after : Disk) (directories : Set ℕ) (directory index : ℕ)
    (old new : DirectoryEntry) : Prop where
  mem : directory ∈ directories
  closed : ClosedDisk after directories
  found : (diskEntries disk directory)[index]? = some old
  entries : diskEntries after directory = (diskEntries disk directory).set index new
  others : ∀ number ∈ directories, number ≠ directory →
    diskEntries after number = diskEntries disk number
  inodeNumber : new.inodeNumber = old.inodeNumber
  type : new.type = old.type

/-- A rename survives a remount: a lookup of the old path returns `NULL`, one of the new path returns
the inode, and what was found below the old path is found below the new one. -/
def SurvivesRemount (disk after : Disk) (path : List (List Char)) (old new : List Char)
    (number : ℕ) : Prop :=
  GivesNull after (path ++ [old]) ∧ Gives after (path ++ [new]) number ∧
    ∀ rest below, (∀ name ∈ rest, name ≠ [] ∧ '/' ∉ name) →
      Gives disk (path ++ old :: rest) below → Gives after (path ++ new :: rest) below

section Walk

variable {disk after : Disk} {directories : Set ℕ} {dir idx : ℕ}
  {old new parent : DirectoryEntry} {path : List (List Char)}

theorem Leads.unique_end : ∀ {names : List (List Char)} {entry first second : DirectoryEntry},
    Leads disk entry names first → Leads disk entry names second → first = second
  | [], _, _, _, hfirst, hsecond => hfirst.symm.trans hsecond
  | _ :: _, _, _, _, ⟨_, _, child, hchild, _, hfirst⟩, ⟨_, _, child', hchild', _, hsecond⟩ => by
      obtain rfl : child = child' := some.inj (hchild.symm.trans hchild')
      exact hfirst.unique_end hsecond

theorem TreeDisk.name_of_leads (htree : TreeDisk disk directories) :
    ∀ {names : List (List Char)} {entry target : DirectoryEntry}, Leads disk entry names target →
      Live directories entry → ∀ name ∈ names, name ≠ [] ∧ '/' ∉ name
  | _ :: _, _, _, ⟨_, htype, child, hfirst, hname, hrest⟩, hlive, name, hmem => by
      have hchild := mem_of_firstEntry hfirst
      rcases mem_cons.mp hmem with rfl | hmem
      · obtain ⟨hne, hslash, -⟩ := htree.name _ (hlive htype) child hchild
        exact hname ▸ ⟨hne, hslash⟩
      · exact htree.name_of_leads hrest (htree.live_of_mem hlive htype hchild) name hmem

namespace Renamed

section

variable (hrenamed : Renamed disk after directories dir idx old new)
  (htree : TreeDisk disk directories)
include hrenamed htree

theorem leads_path (hpath : Leads disk rootEntry path parent)
    (hpar : parent.inodeNumber = dir) : Leads after rootEntry path parent := by
  refine hpath.congr fun before rest mid hsplit hrest hmiddle htype ↦ ?_
  have hmem := htree.live_of_leads hmiddle htree.live_root htype
  refine hrenamed.others _ hmem fun hdir ↦ hrest ?_
  have hsame := htree.leads_unique hmiddle hpath (hdir.trans hpar.symm)
  rwa [hsplit, self_eq_append_right] at hsame

variable {rest : List (List Char)} {target : DirectoryEntry}

theorem leads_below (hpath : Leads disk rootEntry path parent)
    (hpar : parent.inodeNumber = dir)
    (hold : Leads disk rootEntry (path ++ [old.name]) old) (hleads : Leads disk old rest target) :
    Leads after old rest target := by
  refine hleads.congr fun before rest mid _ _ hmiddle htype ↦ ?_
  have hwalk := leads_append.mpr ⟨old, hold, hmiddle⟩
  have hmem := htree.live_of_leads hwalk htree.live_root htype
  refine hrenamed.others _ hmem fun hdir ↦ ?_
  have hsame := congrArg length
    (htree.leads_unique hwalk hpath (hdir.trans hpar.symm))
  simp only [length_append, length_singleton] at hsame
  omega

theorem not_comparable_old {other : DirectoryEntry}
    (hother : other ∈ (diskEntries disk dir).take idx ∨
      other ∈ (diskEntries disk dir).drop (idx + 1)) :
    ¬ Comparable other.name old.name := by
  obtain ⟨hidx, hget⟩ := List.getElem?_eq_some_iff.mp hrenamed.found
  have hapart := htree.apart _ hrenamed.mem
  rw [← take_append_drop idx (diskEntries disk dir),
    drop_eq_getElem_cons hidx, hget] at hapart
  obtain ⟨-, hafter, hbefore⟩ := pairwise_append.mp hapart
  rcases hother with hother | hother
  · exact hbefore other hother old mem_cons_self
  · exact fun h ↦ (pairwise_cons.mp hafter).1 other hother h.symm

section

variable (hpar : parent.inodeNumber = dir) (hsize : parent.size % 2 ^ 8 = 0)
include hpar hsize

theorem firstEntry_parent (name : List Char) :
    firstEntry after parent name = ((diskEntries disk dir).take idx ++
      new :: (diskEntries disk dir).drop (idx + 1)).find? fun child ↦
        safeStrcmp child.name name VFS_MAX_NAME_LENGTH := by
  have hidx := (List.getElem?_eq_some_iff.mp hrenamed.found).1
  have hfew : (diskEntries after dir).length ≤ VNODE_MAX_DIRECTORY_ENTRIES := by
    rw [hrenamed.entries, length_set]
    exact (length_take_le _ _).trans (htree.few _ hrenamed.mem)
  rw [firstEntry, if_pos hsize, hpar, take_of_length_le hfew, hrenamed.entries,
    set_eq_take_append_cons_drop, if_pos hidx]

theorem firstEntry_old :
    firstEntry after parent old.name = none ↔ ¬ Comparable old.name new.name := by
  have hmem := mem_of_getElem? hrenamed.found
  have hlen := le_of_lt (htree.name _ hrenamed.mem old hmem).2.2
  rw [hrenamed.firstEntry_parent htree hpar hsize, find?_eq_none]
  simp only [safeStrcmp_iff hlen]
  constructor
  · exact fun hnone hcomparable ↦
      hnone new (mem_append_right _ mem_cons_self) (Comparable.symm hcomparable)
  · intro hnot other hother
    rcases mem_append.mp hother with hother | hother
    · exact hrenamed.not_comparable_old htree (.inl hother)
    · rcases mem_cons.mp hother with rfl | hother
      · exact fun h ↦ hnot (Comparable.symm h)
      · exact hrenamed.not_comparable_old htree (.inr hother)

theorem firstEntry_new (hlen : new.name.length < VFS_MAX_NAME_LENGTH)
    (hapart : ∀ earlier ∈ (diskEntries disk dir).take idx,
      ¬ Comparable earlier.name new.name) : firstEntry after parent new.name = some new := by
  rw [hrenamed.firstEntry_parent htree hpar hsize]
  refine find?_eq_some_iff_append.mpr
    ⟨safeStrcmp_self _ _, _, _, rfl, fun earlier hearlier ↦ ?_⟩
  rw [Bool.not_eq_true', ← Bool.not_eq_true, safeStrcmp_iff hlen.le]
  exact hapart earlier hearlier

theorem apart_of_firstEntry (hlen : new.name.length < VFS_MAX_NAME_LENGTH)
    (hfresh : ∀ entry ∈ diskEntries disk dir, entry.name ≠ new.name) {child : DirectoryEntry}
    (hchild : firstEntry after parent new.name = some child) (hname : child.name = new.name) :
    ∀ earlier ∈ (diskEntries disk dir).take idx, ¬ Comparable earlier.name new.name := by
  intro earlier hearlier hcomparable
  rw [hrenamed.firstEntry_parent htree hpar hsize, find?_append] at hchild
  cases hfirst : ((diskEntries disk dir).take idx).find? fun child ↦
      safeStrcmp child.name new.name VFS_MAX_NAME_LENGTH with
  | none =>
    exact find?_eq_none.mp hfirst earlier hearlier
      ((safeStrcmp_iff hlen.le).mpr hcomparable)
  | some other =>
    rw [hfirst, some_or] at hchild
    obtain rfl := some.inj hchild
    exact hfresh other (mem_of_mem_take (mem_of_find?_eq_some hfirst)) hname

end

end

theorem leads_new (hrenamed : Renamed disk after directories dir idx old new)
    (hleads : Leads after old rest target)
    (hrest : rest ≠ []) (hsize : new.size % 2 ^ 8 = 0) : Leads after new rest target := by
  obtain ⟨name, names, rfl⟩ := exists_cons_of_ne_nil hrest
  obtain ⟨hlen, htype, child, hfirst, hname, hnames⟩ := hleads
  refine ⟨hlen, hrenamed.type.trans htype, child, ?_, hname, hnames⟩
  rw [firstEntry, if_pos (size_of_firstEntry hfirst)] at hfirst
  rw [firstEntry, if_pos hsize, hrenamed.inodeNumber]
  exact hfirst

theorem exists_parent (hrenamed : Renamed disk after directories dir idx old new)
    (htree : TreeDisk disk directories) (hold : Leads disk rootEntry (path ++ [old.name]) old) :
    ∃ parent, Leads disk rootEntry path parent ∧ parent.type = .directory ∧
      parent.inodeNumber = dir ∧ parent.size % 2 ^ 8 = 0 := by
  have hmem := mem_of_getElem? hrenamed.found
  obtain ⟨parent, hpath, -, htype, child, hfirst, -, rfl⟩ := leads_append.mp hold
  have hlive := htree.live_of_leads hpath htree.live_root htype
  exact ⟨parent, hpath, htype,
    (htree.unique _ hlive _ hrenamed.mem _ (mem_of_firstEntry hfirst) _ hmem rfl).1,
    size_of_firstEntry hfirst⟩

theorem components (htree : TreeDisk disk directories) (hpath : Leads disk rootEntry path parent)
    {name : List Char} (hname : name ≠ [] ∧ '/' ∉ name)
    (hrest : ∀ name ∈ rest, name ≠ [] ∧ '/' ∉ name) : Components (path ++ name :: rest) := by
  refine ⟨by simp, fun other hother ↦ ?_⟩
  rcases mem_append.mp hother with hother | hother
  · exact htree.name_of_leads hpath htree.live_root other hother
  · rcases mem_cons.mp hother with rfl | hother
    · exact hname
    · exact hrest other hother

section

variable (hrenamed : Renamed disk after directories dir idx old new)
  (htree : TreeDisk disk directories) (hold : Leads disk rootEntry (path ++ [old.name]) old)
include hrenamed htree hold

theorem givesNull_iff :
    GivesNull after (path ++ [old.name]) ↔ ¬ Comparable old.name new.name := by
  obtain ⟨parent, hpath, htype, hpar, hsize⟩ := hrenamed.exists_parent htree hold
  obtain ⟨hne, hslash, hlen⟩ :=
    htree.name _ hrenamed.mem old (mem_of_getElem? hrenamed.found)
  have hwalk := hrenamed.leads_path htree hpath hpar
  rw [hrenamed.closed.givesNull_iff (components htree hpath ⟨hne, hslash⟩ (by simp)),
    hwalk.prefixWalk_missing, ← hrenamed.firstEntry_old htree hpar hsize]
  cases hfirst : firstEntry after parent old.name with
  | none =>
    have hreadable := readable_entry hlen hsize
    have htype' : (diosfsDirectoryEntryToVnode parent).vnodeType = .directory := htype
    simp [prefixWalk, hreadable, htype', firstComparable_entry htype, hfirst]
  | some child =>
    rw [prefixWalk_cons hlen htype hfirst]
    simp [prefixWalk, Outcome.behind]

theorem leads_below_iff :
    (∀ rest below, (∀ name ∈ rest, name ≠ [] ∧ '/' ∉ name) →
        (∃ target, Leads disk old rest target ∧ target.inodeNumber = below) →
        ∃ target, Leads after new rest target ∧ target.inodeNumber = below) ↔
      (old.type = .directory → old.size % 2 ^ 8 = 0 → diskEntries disk old.inodeNumber ≠ [] →
        new.size % 2 ^ 8 = 0) := by
  obtain ⟨parent, hpath, -, hpar, -⟩ := hrenamed.exists_parent htree hold
  constructor
  · intro hbelow htype hsize hentries
    obtain ⟨child, hchild⟩ := exists_mem_of_ne_nil _ hentries
    have hlive := htree.live_of_leads hold htree.live_root htype
    obtain ⟨hne, hslash, hlen⟩ := htree.name _ hlive child hchild
    obtain ⟨target, ⟨-, -, _, hfirst, -⟩, -⟩ := hbelow [child.name] child.inodeNumber
      (by simpa using ⟨hne, hslash⟩)
      ⟨child, ⟨hlen, htype, child, htree.firstEntry_of_mem hlive hsize hchild, rfl, rfl⟩, rfl⟩
    exact size_of_firstEntry hfirst
  · rintro hnew rest below - ⟨target, hleads, hbelow⟩
    cases rest with
    | nil =>
      obtain rfl : old = target := hleads
      exact ⟨new, rfl, hrenamed.inodeNumber.trans hbelow⟩
    | cons name rest =>
      have hstill := hrenamed.leads_below htree hpath hpar hold hleads
      obtain ⟨-, htype, child, hfirst, -⟩ := hleads
      have hsize := hnew htype (size_of_firstEntry hfirst)
        (ne_nil_of_mem (mem_of_firstEntry hfirst))
      exact ⟨target, hrenamed.leads_new hstill (by simp) hsize, hbelow⟩

variable (hnew : new.name ≠ [] ∧ '/' ∉ new.name) (hlen : new.name.length < VFS_MAX_NAME_LENGTH)
  (hfresh : ∀ entry ∈ diskEntries disk dir, entry.name ≠ new.name)
include hnew hlen hfresh

theorem gives_new_iff (hrest : ∀ name ∈ rest, name ≠ [] ∧ '/' ∉ name) {below : ℕ} :
    Gives after (path ++ new.name :: rest) below ↔
      (∀ earlier ∈ (diskEntries disk dir).take idx, ¬ Comparable earlier.name new.name) ∧
      ∃ target, Leads after new rest target ∧ target.inodeNumber = below := by
  obtain ⟨parent, hpath, htype, hpar, hsize⟩ := hrenamed.exists_parent htree hold
  have hwalk := hrenamed.leads_path htree hpath hpar
  rw [hrenamed.closed.gives_iff (components htree hpath hnew hrest)]
  constructor
  · rintro ⟨target, hleads, hbelow⟩
    obtain ⟨mid, hmiddle, -, -, child, hfirst, hname, htarget⟩ := leads_append.mp hleads
    obtain rfl := hmiddle.unique_end hwalk
    have hapart := hrenamed.apart_of_firstEntry htree hpar hsize hlen hfresh hfirst hname
    rw [hrenamed.firstEntry_new htree hpar hsize hlen hapart] at hfirst
    cases hfirst
    exact ⟨hapart, target, htarget, hbelow⟩
  · rintro ⟨hapart, target, hleads, hbelow⟩
    have hfirst := hrenamed.firstEntry_new htree hpar hsize hlen hapart
    exact ⟨target, leads_append.mpr
      ⟨parent, hwalk, hlen, htype, new, hfirst, rfl, hleads⟩, hbelow⟩

/-- **The condition.** Lookups survive the exchange if and only if the code tells the new name apart
from the old one and from those of the entries before, and the new entry of a directory that was found
with entries in it has no size. -/
theorem survives_iff :
    SurvivesRemount disk after path old.name new.name old.inodeNumber ↔
      ¬ Comparable old.name new.name ∧
        (∀ earlier ∈ (diskEntries disk dir).take idx, ¬ Comparable earlier.name new.name) ∧
        (old.type = .directory → old.size % 2 ^ 8 = 0 → diskEntries disk old.inodeNumber ≠ [] →
          new.size % 2 ^ 8 = 0) := by
  have hmem := mem_of_getElem? hrenamed.found
  obtain ⟨hne, hslash, -⟩ := htree.name _ hrenamed.mem old hmem
  obtain ⟨parent, hpath, -⟩ := hrenamed.exists_parent htree hold
  -- what was found below the old path, as walks from the old entry
  have hbelow : ∀ (rest : List (List Char)) (below : ℕ), (∀ name ∈ rest, name ≠ [] ∧ '/' ∉ name) →
      (Gives disk (path ++ old.name :: rest) below ↔
        ∃ target, Leads disk old rest target ∧ target.inodeNumber = below) := by
    intro rest below hrest
    rw [htree.gives_iff (components htree hpath ⟨hne, hslash⟩ hrest), ← singleton_append,
      ← append_assoc]
    refine exists_congr fun target ↦ and_congr_left fun _ ↦ ?_
    rw [leads_append]
    constructor
    · rintro ⟨mid, hmiddle, hleads⟩
      exact hmiddle.unique_end hold ▸ hleads
    · exact fun hleads ↦ ⟨old, hold, hleads⟩
  rw [SurvivesRemount, hrenamed.givesNull_iff htree hold, ← hrenamed.leads_below_iff htree hold,
    hrenamed.gives_new_iff htree hold hnew hlen hfresh (by simp)]
  refine and_congr_right fun _ ↦ ?_
  constructor
  · rintro ⟨⟨hapart, -⟩, hsurvive⟩
    refine ⟨hapart, fun rest below hrest hleads ↦ ?_⟩
    have hgives := hsurvive rest below hrest ((hbelow rest below hrest).mpr hleads)
    exact ((hrenamed.gives_new_iff htree hold hnew hlen hfresh hrest).mp hgives).2
  · rintro ⟨hapart, hsurvive⟩
    refine ⟨⟨hapart, new, rfl, hrenamed.inodeNumber⟩, fun rest below hrest hgives ↦ ?_⟩
    exact (hrenamed.gives_new_iff htree hold hnew hlen hfresh hrest).mpr
      ⟨hapart, hsurvive rest below hrest ((hbelow rest below hrest).mp hgives)⟩

end

end Renamed

end Walk

end DionysOS.Filesystem.Vfs
