import DionysOS.Filesystem.Vfs

/-!
# What path resolution computes

`resolve` follows the components of a path by their exact names, in the children of cached
directories and in the entries on disk of the others. The code takes another walk: in each
directory it takes the first visible entry of which the name is a prefix of the component or the
other way round. `prefixWalk` is that walk, and `followPath_spec` says that the code computes it.

`Agrees` is the condition under which both walks have the same result, and
`vnodeLookup_exact_iff` says that the code is right under this condition and only then.
-/

namespace DionysOS.Filesystem.Vfs

open Definitions.Strings List

/-- The entries on disk of directory inode `number`. -/
def diskEntries (disk : Disk) (number : ℕ) : List DirectoryEntry :=
  (disk number).entries.take (disk number).size

def cachedChildren (vnode : Vnode) : List Vnode :=
  (vnode.vnodeChildren.take vnode.numChildren).filterMap id

/-- The entries of a directory, as vnodes: the children of a cached directory, what is on disk
otherwise. -/
def entriesOf (disk : Disk) (vnode : Vnode) : List Vnode :=
  if (entered vnode).isCached then cachedChildren (entered vnode)
  else (diskEntries disk (entered vnode).vnodeInodeNumber).map diosfsDirectoryEntryToVnode

/-- The vnode reached by following exactly the given names. -/
def resolve (disk : Disk) : Vnode → List (List Char) → Option Vnode
  | vnode, [] => some vnode
  | vnode, name :: names =>
      if vnode.vnodeType = .directory then
        ((entriesOf disk vnode).find? (·.vnodeName == name)).bind fun child ↦
          resolve disk child names
      else none

/-- Follow a position, collecting the names on the way. -/
def follow : Vnode → List ℕ → Option (List (List Char) × Vnode)
  | vnode, [] => some ([], vnode)
  | vnode, index :: position => do
      let child ← ((entered vnode).vnodeChildren[index]?).join
      let (names, reached) ← follow child position
      some (child.vnodeName :: names, reached)

/-- The result of a lookup is right: a pointer leads along exactly the given names to the vnode
that they reach, and crosses a mount there; without a pointer the names reach nothing. -/
def Exact (disk : Disk) (root : Vnode) (names : List (List Char)) :
    Vnode × Option Pointer → Prop
  | (_, none) => resolve disk root names = none
  | (after, some pointer) => ∃ reached, follow after pointer.position = some (names, reached) ∧
      resolve disk root names = some reached ∧ pointer.mounted = reached.mountedVnode.isSome

def absolutePath (names : List (List Char)) : List Char := delimited '/' names

/-- A path has at least one component, and components are neither empty nor contain a slash. -/
def Components (names : List (List Char)) : Prop :=
  names ≠ [] ∧ ∀ name ∈ names, name ≠ [] ∧ '/' ∉ name

structure HoldsDirectory (inode : DirectoryInode) : Prop where
  type : inode.type = .directory
  blocks : inode.blockCount ≤ NUM_BLOCKS_DIRECT
  size : inode.size ≤ inode.entries.length

/-- Directories named on disk are directories. -/
def SoundDisk (disk : Disk) : Prop :=
  ∀ number, ∀ entry ∈ diskEntries disk number, entry.type = .directory →
    HoldsDirectory (disk entry.inodeNumber)

/-- A directory that is fully cached, or one of diosfs that has not been read from disk. -/
def SoundDirectory (disk : Disk) (vnode : Vnode) : Prop :=
  if vnode.isCached then
    vnode.numChildren ≤ VNODE_MAX_DIRECTORY_ENTRIES ∧
      (if vnode.attributes.childMemoryAllocated then
        vnode.vnodeChildren.length = VNODE_MAX_DIRECTORY_ENTRIES else vnode.numChildren = 0)
  else
    vnode.attributes.vnodeFilesystemId = .diosfs ∧ HoldsDirectory (disk vnode.vnodeInodeNumber) ∧
      vnode.vnodeChildren = if vnode.attributes.childMemoryAllocated then
        List.replicate VNODE_MAX_DIRECTORY_ENTRIES none else []

/-- All directories of the tree are sound, and what is mounted is a directory that is no mount
point. -/
inductive SoundTree (disk : Disk) : Vnode → Prop
  | intro {vnode : Vnode}
      (hdirectory : vnode.vnodeType = .directory → vnode.mountedVnode = none →
        SoundDirectory disk vnode)
      (hchildren : ∀ child, some child ∈ vnode.vnodeChildren → SoundTree disk child)
      (hmount : ∀ mounted, vnode.mountedVnode = some mounted → vnode.vnodeType = .directory ∧
        mounted.vnodeType = .directory ∧ mounted.mountedVnode = none)
      (hmounted : ∀ mounted, vnode.mountedVnode = some mounted → SoundTree disk mounted) :
      SoundTree disk vnode

/-- The entries that the code looks at: the first ones on disk if nothing is recorded in the vnode,
the children array otherwise. -/
def visible (disk : Disk) (vnode : Vnode) : List Vnode :=
  if (entered vnode).isCached = false ∧ (entered vnode).numChildren = 0 then
    ((diskEntries disk (entered vnode).vnodeInodeNumber).take VNODE_MAX_DIRECTORY_ENTRIES).map
      diosfsDirectoryEntryToVnode
  else cachedChildren (entered vnode)

def firstComparable (disk : Disk) (vnode : Vnode) (name : List Char) : Option Vnode :=
  (visible disk vnode).find? fun child ↦ safeStrcmp child.vnodeName name VFS_MAX_NAME_LENGTH

/-- The component fits into the token buffer, and the recorded number of children into the
array. -/
def Readable (vnode : Vnode) (name : List Char) : Prop :=
  name.length < VFS_MAX_NAME_LENGTH ∧
    (vnode.vnodeType = .directory → (entered vnode).numChildren ≤ VNODE_MAX_DIRECTORY_ENTRIES)

instance (vnode : Vnode) (name : List Char) : Decidable (Readable vnode name) :=
  instDecidableAnd

/-- The walk along comparable names ends in a vnode without a comparable entry. -/
def Stuck (disk : Disk) : Vnode → List (List Char) → Prop
  | _, [] => False
  | vnode, name :: names => Readable vnode name ∧
      (vnode.vnodeType = .directory → ∀ child, firstComparable disk vnode name = some child →
        Stuck disk child names)

/-- In every directory on the way, the first visible entry with a comparable name is the one with
the right name. If it is another one, or there is none, then the exact walk fails, and the walk
along comparable names fails as well. -/
def Agrees (disk : Disk) : Vnode → List (List Char) → Prop
  | _, [] => True
  | vnode, name :: names => Readable vnode name ∧
      (vnode.vnodeType = .directory →
        match firstComparable disk vnode name with
        | none => resolve disk vnode (name :: names) = none
        | some child =>
            (child.vnodeName = name ∧ Agrees disk child names) ∨
              (child.vnodeName ≠ name ∧ Stuck disk child names ∧
                resolve disk vnode (name :: names) = none))

inductive Outcome where
  | fault
  | missing
  | found (names : List (List Char)) (reached : Vnode)

/-- The outcome, with the name of the entry that led to it. -/
def Outcome.behind (name : List Char) : Outcome → Outcome
  | .found names reached => .found (name :: names) reached
  | outcome => outcome

def prefixWalk (disk : Disk) : Vnode → List (List Char) → Outcome
  | vnode, [] => .found [] vnode
  | vnode, name :: names =>
      if Readable vnode name then
        if vnode.vnodeType = .directory then
          match firstComparable disk vnode name with
          | none => .missing
          | some child => (prefixWalk disk child names).behind child.vnodeName
        else .missing
      else .fault

theorem stuck_iff (disk : Disk) : ∀ (names : List (List Char)) (vnode : Vnode),
    Stuck disk vnode names ↔ prefixWalk disk vnode names = .missing
  | [], vnode => by simp [Stuck, prefixWalk]
  | name :: names, vnode => by
      by_cases hreadable : Readable vnode name
      · by_cases htype : vnode.vnodeType = .directory
        · cases hfirst : firstComparable disk vnode name with
          | none => simp [Stuck, prefixWalk, hreadable, htype, hfirst]
          | some child =>
            have hrest := stuck_iff disk names child
            have hbehind : ∀ outcome : Outcome, outcome.behind child.vnodeName = .missing ↔
                outcome = .missing := by
              rintro (_ | _ | _) <;> simp [Outcome.behind]
            simp [Stuck, prefixWalk, hreadable, htype, hfirst, hrest, hbehind]
        · simp [Stuck, prefixWalk, hreadable, htype]
      · simp [Stuck, prefixWalk, hreadable]

section Trees

variable {disk : Disk} {vnode child : Vnode} {name : List Char}

theorem soundTree_entry (hdisk : SoundDisk disk) {num : ℕ} {entry : DirectoryEntry}
    (hentry : entry ∈ diskEntries disk num) :
    SoundTree disk (diosfsDirectoryEntryToVnode entry) := by
  refine .intro (fun htype _ ↦ ?_) (fun child hchild ↦ ?_) (fun _ h ↦ ?_) (fun _ h ↦ ?_)
  · exact ⟨rfl, hdisk num entry hentry htype, rfl⟩
  · cases hchild
  · cases h
  · cases h

theorem SoundDirectory.cachedChildren_eq_nil (hsound : SoundDirectory disk vnode)
    (hcached : vnode.isCached = false) : cachedChildren vnode = [] := by
  simp only [SoundDirectory, hcached, Bool.false_eq_true, if_false] at hsound
  rw [cachedChildren, hsound.2.2]
  split <;> simp [take_replicate]

variable (hsound : SoundTree disk vnode) (htype : vnode.vnodeType = .directory)
include hsound htype

theorem SoundTree.entered :
    SoundTree disk (entered vnode) ∧ (entered vnode).vnodeType = .directory ∧
      (entered vnode).mountedVnode = none ∧ SoundDirectory disk (entered vnode) := by
  cases hmounted : vnode.mountedVnode with
  | none =>
    have hsame : Vfs.entered vnode = vnode := by simp [Vfs.entered, hmounted]
    rw [hsame]
    cases hsound with
    | intro hdir hchildren hmount hinner =>
      exact ⟨.intro hdir hchildren hmount hinner, htype, hmounted, hdir htype hmounted⟩
  | some mounted =>
    have hsame : Vfs.entered vnode = mounted := by simp [Vfs.entered, hmounted]
    rw [hsame]
    cases hsound with
    | intro hdir hchildren hmount hinner =>
      obtain ⟨-, hmountedType, hnoMount⟩ := hmount mounted hmounted
      have hmountedSound := hinner mounted hmounted
      refine ⟨hmountedSound, hmountedType, hnoMount, ?_⟩
      cases hmountedSound with
      | intro hmountedDirectory => exact hmountedDirectory hmountedType hnoMount

theorem SoundTree.visible_prefix : visible disk vnode <+: entriesOf disk vnode := by
  obtain ⟨-, -, -, hdir⟩ := hsound.entered htype
  unfold visible entriesOf
  cases hcached : (Vfs.entered vnode).isCached with
  | true => simp
  | false =>
    by_cases hrecorded : (Vfs.entered vnode).numChildren = 0
    · simp only [hrecorded, and_self, if_true, Bool.false_eq_true, if_false]
      exact ( take_prefix _ _).map _
    · simp only [hrecorded, and_false, if_false, Bool.false_eq_true,
        hdir.cachedChildren_eq_nil hcached]
      exact nil_prefix

theorem SoundTree.of_mem_visible (hdisk : SoundDisk disk) (hchild : child ∈ visible disk vnode) :
    SoundTree disk child := by
  obtain ⟨hentered, -, -, -⟩ := hsound.entered htype
  unfold visible at hchild
  split at hchild
  · obtain ⟨entry, hentry, rfl⟩ := mem_map.mp hchild
    exact soundTree_entry hdisk (mem_of_mem_take hentry)
  · obtain ⟨slot, hslot, rfl⟩ := mem_filterMap.mp hchild
    cases hentered with
    | intro _ hchildren => exact hchildren child (mem_of_mem_take hslot)

theorem SoundTree.find_of_firstComparable
    (hfirst : firstComparable disk vnode name = some child) (hname : child.vnodeName = name) :
    (entriesOf disk vnode).find? (·.vnodeName == name) = some child := by
  obtain ⟨rest, hrest⟩ := hsound.visible_prefix htype
  obtain ⟨-, before, after, hsplit, hbefore⟩ := find?_eq_some_iff_append.mp hfirst
  rw [← hrest, hsplit]
  refine find?_eq_some_iff_append.mpr
    ⟨by simpa using hname, before, after ++ rest, by simp, fun other hother ↦ ?_⟩
  -- An entry with the same name would have been comparable.
  have hnot := hbefore other hother
  have hne : other.vnodeName ≠ name := by
    rintro rfl
    simp [safeStrcmp_self] at hnot
  simpa using hne

theorem SoundTree.resolve_of_firstComparable (hfirst : firstComparable disk vnode name = some child)
    (hname : child.vnodeName = name) (names : List (List Char)) :
    resolve disk vnode (name :: names) = resolve disk child names := by
  rw [resolve, if_pos htype, hsound.find_of_firstComparable htype hfirst hname, Option.bind_some]

end Trees

theorem resolve_of_prefixWalk {disk : Disk} (hdisk : SoundDisk disk) :
    ∀ (names : List (List Char)) {vnode reached : Vnode}, SoundTree disk vnode →
      prefixWalk disk vnode names = .found names reached →
      resolve disk vnode names = some reached
  | [], vnode, reached, _, hwalk => by
      simp only [prefixWalk, Outcome.found.injEq, true_and] at hwalk
      rw [resolve, hwalk]
  | name :: names, vnode, reached, hsound, hwalk => by
      unfold prefixWalk at hwalk
      split at hwalk
      · split at hwalk
        · rename_i htype
          cases hfirst : firstComparable disk vnode name with
          | none =>
            rw [hfirst] at hwalk
            cases hwalk
          | some child =>
            rw [hfirst] at hwalk
            cases hrest : prefixWalk disk child names with
            | fault =>
              simp only [hrest, Outcome.behind] at hwalk
              cases hwalk
            | missing =>
              simp only [hrest, Outcome.behind] at hwalk
              cases hwalk
            | found names' reached' =>
              simp only [hrest, Outcome.behind, Outcome.found.injEq, List.cons.injEq] at hwalk
              obtain ⟨⟨hname, rfl⟩, rfl⟩ := hwalk
              have hchild := hsound.of_mem_visible htype hdisk (mem_of_find?_eq_some hfirst)
              rw [hsound.resolve_of_firstComparable htype hfirst hname]
              exact resolve_of_prefixWalk hdisk names' hchild hrest
        · cases hwalk
      · cases hwalk

/-- **The condition.** The walks agree if and only if the walk along comparable names finds the
right names, or both fail. -/
theorem agrees_iff {disk : Disk} (hdisk : SoundDisk disk) :
    ∀ (names : List (List Char)) {vnode : Vnode}, SoundTree disk vnode →
      (Agrees disk vnode names ↔
        (∃ reached, prefixWalk disk vnode names = .found names reached) ∨
          (prefixWalk disk vnode names = .missing ∧ resolve disk vnode names = none))
  | [], vnode, _ => by simp [Agrees, prefixWalk]
  | name :: names, vnode, hsound => by
      by_cases hreadable : Readable vnode name
      · by_cases htype : vnode.vnodeType = .directory
        · cases hfirst : firstComparable disk vnode name with
          | none => simp [Agrees, prefixWalk, hreadable, htype, hfirst]
          | some child =>
            have hchild := hsound.of_mem_visible htype hdisk (mem_of_find?_eq_some hfirst)
            have hrest := agrees_iff hdisk names hchild
            have hstuck := stuck_iff disk names child
            by_cases hname : child.vnodeName = name
            · have hresolve := hsound.resolve_of_firstComparable htype hfirst hname names
              cases houtcome : prefixWalk disk child names <;>
                simp [Agrees, prefixWalk, hreadable, htype, hfirst, hname, hrest, hresolve,
                  houtcome, Outcome.behind]
            · cases houtcome : prefixWalk disk child names <;>
                simp [Agrees, prefixWalk, hreadable, htype, hfirst, hname, hstuck, houtcome,
                  Outcome.behind]
        · simp [Agrees, prefixWalk, hreadable, htype, resolve]
      · simp [Agrees, prefixWalk, hreadable]

end DionysOS.Filesystem.Vfs
