import DionysOS.Definitions.StringBuffers
import DionysOS.Filesystem.ChildCache

/-!
# Canonical paths

`vnode_get_canonical_path` over a memory of vnodes, and `vnode_lookup` of a path that is given as a
string. `CachedTree` says that the vnodes below the root are a tree, with file systems mounted on
some of its directories, and `Walk` is the way of a lookup through it: from a mount point it goes on
in the vnode that is mounted there. Every vnode of the tree is on at most one walk.
-/

namespace DionysOS.Filesystem.CanonicalPath

open DataStructures Definitions.Strings ChildCache Option
open Vfs (VFS_MAX_NAME_LENGTH)

def PAGE_SIZE : ℕ := 4096

/-- What is written of a name; a name that starts with a slash is left out. -/
def written (vnode : Vnode) : List Char :=
  if vnode.vnodeName.head? = some '/' then [] else vnode.vnodeName

/-- The mount point of a vnode that is mounted, and the vnode itself otherwise. -/
def leave (memory : VnodeMemory) (vnode : Ptr) : Ptr :=
  if (memory vnode).isMounted then (memory vnode).vnodeParent else vnode

/-- The loop of `vnode_get_canonical_path` that goes up to the root. Every round adds a slash, so that
more rounds than bytes overflow the buffer. -/
def climb (vfsRoot : Ptr) (memory : VnodeMemory) : ℕ → Ptr → List Char → Option (List Char)
  | 0, _, _ => none
  | fuel + 1, pointer, buffer =>
      if pointer = NULL ∨ pointer = vfsRoot then some buffer
      else if leave memory pointer = NULL then none
      else do
        let pointer := leave memory pointer
        let buffer ← strcat PAGE_SIZE buffer ['/']
        let buffer ← strcat PAGE_SIZE buffer (written (memory pointer))
        climb vfsRoot memory fuel (memory pointer).vnodeParent buffer

/-- The loop that appends the tokens of the buffer, the last one first. -/
def appendTokens (buffer : List Char) : ℕ → List Char → Option (List Char)
  | 0, final => some final
  | number + 1, final => do
      let (temp, _) ← strtokZeroed PAGE_SIZE buffer '/' (number + 1)
      let final ← strcat PAGE_SIZE final ['/']
      let final ← strcat PAGE_SIZE final temp
      appendTokens buffer number final

def vnodeGetCanonicalPath (vfsRoot : Ptr) (memory : VnodeMemory) (vnode : Ptr) :
    Option (List Char) := do
  let buffer ← climb vfsRoot memory PAGE_SIZE vnode []
  let tokenLength ← strtokCount PAGE_SIZE buffer '/' PAGE_SIZE
  appendTokens buffer (tokenLength + 1) []

/-- The loop of `parse_path`, with `tokenNumber` the token to read next. -/
def parseLoop (path : List Char) :
    ℕ → ℕ → VnodeMemory → Ptr → Option (VnodeMemory × Option Ptr)
  | 0, _, _, _ => none
  | fuel + 1, tokenNumber, memory, vnode => do
      let (token, last) ← strtok VFS_MAX_NAME_LENGTH path '/' tokenNumber
      let (memory, found) ← findVnodeChild memory vnode token
      match found with
      | none => some (memory, none)
      | some child =>
          if last then some (memory, some (enter memory child))
          else parseLoop path fuel (tokenNumber + 1) memory child

/-- `vnode_lookup` and `parse_path` for a path that starts with a slash. -/
def vnodeLookup (vfsRoot : Ptr) (memory : VnodeMemory) (path : List Char) :
    Option (VnodeMemory × Option Ptr) :=
  let path := path.dropWhile (· == '/')
  if path = [] then some (memory, some (enter memory vfsRoot))
  else parseLoop path path.length 1 memory (enter memory vfsRoot)

/-- What a lookup of the canonical path of a vnode finds. -/
def lookupCanonicalPath (vfsRoot : Ptr) (memory : VnodeMemory) (vnode : Ptr) : Option (Option Ptr) :=
  (vnodeGetCanonicalPath vfsRoot memory vnode).bind fun path ↦
    (vnodeLookup vfsRoot memory path).map Prod.snd

/-- The array of `directory` has `child` in one of the slots in use. -/
def Child (memory : VnodeMemory) (directory child : Ptr) : Prop :=
  child ≠ NULL ∧ ∃ index < (memory directory).numChildren,
    access (memory directory).slots index = some child

/-- The vnodes of the tree, with those that are hidden behind a mount. -/
inductive InTree (vfsRoot : Ptr) (memory : VnodeMemory) : Ptr → Prop
  | root : InTree vfsRoot memory vfsRoot
  | child {directory child : Ptr} (hdirectory : InTree vfsRoot memory directory)
      (hchild : Child memory directory child) : InTree vfsRoot memory child
  | mounted {mountPoint mounted : Ptr} (hmountPoint : InTree vfsRoot memory mountPoint)
      (hmounted : (memory mountPoint).mountedVnode = some mounted) : InTree vfsRoot memory mounted

/-- A tree of cached directories with file systems mounted on it. The root has no name; the names in
a directory are not empty, have no slash and are not prefixes of one another. -/
structure CachedTree (vfsRoot : Ptr) (memory : VnodeMemory) : Prop where
  rootNotNull : vfsRoot ≠ NULL
  rootName : (memory vfsRoot).vnodeName = []
  rootParent : (memory vfsRoot).vnodeParent = NULL
  rootNotMounted : (memory vfsRoot).isMounted = false
  child : ∀ directory child, InTree vfsRoot memory directory → Child memory directory child →
    (memory directory).vnodeType = .directory ∧ child ≠ vfsRoot ∧
      (memory child).vnodeParent = directory ∧ (memory child).isMounted = false
  mount : ∀ mountPoint mounted, InTree vfsRoot memory mountPoint →
    (memory mountPoint).mountedVnode = some mounted →
    (memory mountPoint).vnodeType = .directory ∧ mounted ≠ NULL ∧ mounted ≠ vfsRoot ∧
      (memory mounted).vnodeParent = mountPoint ∧ (memory mounted).isMounted = true ∧
      (memory mounted).vnodeName.length < VFS_MAX_NAME_LENGTH
  name : ∀ directory child, InTree vfsRoot memory directory → Child memory directory child →
    (memory child).vnodeName ≠ [] ∧ '/' ∉ (memory child).vnodeName ∧
      (memory child).vnodeName.length < VFS_MAX_NAME_LENGTH
  siblings : ∀ directory child other, InTree vfsRoot memory directory →
    Child memory directory child → Child memory directory other → child ≠ other →
    ¬ (memory child).vnodeName <+: (memory other).vnodeName

/-- The vnodes that a lookup comes to, before it enters a mount point, with the names on the way. -/
inductive Walk (vfsRoot : Ptr) (memory : VnodeMemory) : Ptr → List (List Char) → Prop
  | start : Walk vfsRoot memory (enter memory vfsRoot) []
  | step {directory child : Ptr} {names : List (List Char)}
      (hwalk : Walk vfsRoot memory directory names)
      (hchild : Child memory (enter memory directory) child) :
      Walk vfsRoot memory child (names ++ [(memory child).vnodeName])

/-- The vnode that a lookup along these names returns. -/
def Named (vfsRoot : Ptr) (memory : VnodeMemory) (vnode : Ptr) (names : List (List Char)) : Prop :=
  (names = [] ∧ vnode = enter memory vfsRoot) ∨
    (names ≠ [] ∧ ∃ found, Walk vfsRoot memory found names ∧ vnode = enter memory found)

section Walks

variable {vfsRoot : Ptr} {memory : VnodeMemory}

variable {vnode : Ptr} {names others : List (List Char)}

theorem enter_eq_self (hmounted : (memory vnode).mountedVnode = none) :
    enter memory vnode = vnode := by
  rw [enter, hmounted, getD_none]

theorem enter_eq_mounted {mounted : Ptr} (hmounted : (memory vnode).mountedVnode = some mounted) :
    enter memory vnode = mounted := by
  rw [enter, hmounted, getD_some]

theorem InTree.enter (hvnode : InTree vfsRoot memory vnode) :
    InTree vfsRoot memory (enter memory vnode) := by
  cases hmounted : (memory vnode).mountedVnode with
  | none => rwa [enter_eq_self hmounted]
  | some mounted =>
    rw [enter_eq_mounted hmounted]
    exact hvnode.mounted hmounted

theorem Walk.inTree (hwalk : Walk vfsRoot memory vnode names) : InTree vfsRoot memory vnode := by
  induction hwalk with
  | start => exact InTree.root.enter
  | step _ hchild ih => exact ih.enter.child hchild

variable (htree : CachedTree vfsRoot memory)

include htree

theorem CachedTree.start_cases : (enter memory vfsRoot = vfsRoot ∧
      (memory vfsRoot).mountedVnode = none) ∨
    ((memory vfsRoot).mountedVnode = some (enter memory vfsRoot) ∧
      (memory (enter memory vfsRoot)).vnodeParent = vfsRoot ∧
      (memory (enter memory vfsRoot)).isMounted = true) := by
  cases hmounted : (memory vfsRoot).mountedVnode with
  | none => exact .inl ⟨enter_eq_self hmounted, rfl⟩
  | some mounted =>
    obtain ⟨-, -, -, hpar, hflag, -⟩ := htree.mount vfsRoot mounted .root hmounted
    rw [enter_eq_mounted hmounted]
    exact .inr ⟨rfl, hpar, hflag⟩

theorem CachedTree.start_ne_child {dir child : Ptr} (hdir : InTree vfsRoot memory dir)
    (hchild : Child memory dir child) : enter memory vfsRoot ≠ child := by
  obtain ⟨-, hroot, -, hunmounted⟩ := htree.child dir child hdir hchild
  rintro rfl
  rcases htree.start_cases with ⟨hsame, -⟩ | ⟨-, -, hmounted⟩
  · exact hroot hsame
  · rw [hmounted] at hunmounted
    cases hunmounted

section

variable (hwalk : Walk vfsRoot memory vnode names)
include hwalk

theorem CachedTree.walk_ne_root (hmounted : (memory vfsRoot).mountedVnode ≠ none) :
    vnode ≠ vfsRoot := by
  cases hwalk with
  | start =>
    rcases htree.start_cases with ⟨-, hnone⟩ | ⟨hsome, -⟩
    · exact absurd hnone hmounted
    · exact (htree.mount vfsRoot _ .root hsome).2.2.1
  | step hwalk hchild => exact (htree.child _ _ hwalk.inTree.enter hchild).2.1

theorem CachedTree.eq_start_of_isMounted (hmounted : (memory vnode).isMounted = true) :
    vnode = enter memory vfsRoot := by
  cases hwalk with
  | start => rfl
  | step hwalk hchild =>
    rw [(htree.child _ _ hwalk.inTree.enter hchild).2.2.2] at hmounted
    cases hmounted

theorem CachedTree.not_mounted_on_walk {mountPoint : Ptr}
    (hother : Walk vfsRoot memory mountPoint others) :
    (memory mountPoint).mountedVnode ≠ some vnode := by
  intro hmounted
  obtain ⟨-, -, hroot, hpar, hflag, -⟩ := htree.mount mountPoint vnode hother.inTree hmounted
  obtain rfl := htree.eq_start_of_isMounted hwalk hflag
  rcases htree.start_cases with ⟨hsame, -⟩ | ⟨hsome, hstart, -⟩
  · exact hroot hsame
  · exact htree.walk_ne_root hother (by rw [hsome]; exact some_ne_none _)
      (hpar.symm.trans hstart)

theorem CachedTree.enter_inj {other : Ptr} (hother : Walk vfsRoot memory other others)
    (hsame : enter memory vnode = enter memory other) : vnode = other := by
  cases hvnode : (memory vnode).mountedVnode with
  | none =>
    rw [enter_eq_self hvnode] at hsame
    cases hmounted : (memory other).mountedVnode with
    | none => rwa [enter_eq_self hmounted] at hsame
    | some mounted =>
      rw [enter_eq_mounted hmounted] at hsame
      exact absurd (hsame ▸ hmounted) (htree.not_mounted_on_walk hwalk hother)
  | some mounted =>
    rw [enter_eq_mounted hvnode] at hsame
    cases hmounted : (memory other).mountedVnode with
    | none =>
      rw [enter_eq_self hmounted] at hsame
      exact absurd (hsame ▸ hvnode) (htree.not_mounted_on_walk hother hwalk)
    | some mounted' =>
      rw [enter_eq_mounted hmounted] at hsame
      subst hsame
      have hpar := (htree.mount vnode _ hwalk.inTree hvnode).2.2.2.1
      exact hpar.symm.trans (htree.mount other _ hother.inTree hmounted).2.2.2.1

theorem CachedTree.walk_unique :
    ∀ {others : List (List Char)}, Walk vfsRoot memory vnode others → names = others := by
  induction hwalk with
  | start =>
    intro others hother
    generalize hstart : enter memory vfsRoot = vnode at hother
    cases hother with
    | start => rfl
    | step hwalk hchild => exact absurd hstart (htree.start_ne_child hwalk.inTree.enter hchild)
  | @step dir child names hwalk hchild ih =>
    intro others hother
    have hpar := (htree.child _ _ hwalk.inTree.enter hchild).2.2.1
    cases hother with
    | start => exact absurd rfl (htree.start_ne_child hwalk.inTree.enter hchild)
    | @step other _ others hother hchild' =>
      have hsame := htree.enter_inj hwalk hother
        (hpar.symm.trans (htree.child _ _ hother.inTree.enter hchild').2.2.1)
      subst hsame
      rw [ih hother]

end

theorem CachedTree.named_unique
    (hnames : Named vfsRoot memory vnode names) (hothers : Named vfsRoot memory vnode others) :
    names = others := by
  have hmixed : ∀ {found : Ptr} {names : List (List Char)}, names ≠ [] →
      Walk vfsRoot memory found names → enter memory vfsRoot ≠ enter memory found := by
    intro found names hne hwalk hsame
    cases hwalk with
    | start => exact hne rfl
    | @step dir _ names hwalk hchild =>
      have hinTree := hwalk.inTree.enter.child hchild
      obtain ⟨-, hroot, -, -⟩ := htree.child _ _ hwalk.inTree.enter hchild
      cases hmounted : (memory found).mountedVnode with
      | none =>
        rw [enter_eq_self hmounted] at hsame
        exact htree.start_ne_child hwalk.inTree.enter hchild hsame
      | some mounted =>
        rw [enter_eq_mounted hmounted] at hsame
        obtain ⟨-, -, hmountedRoot, hpar, -⟩ := htree.mount _ _ hinTree hmounted
        rcases htree.start_cases with ⟨hstart, -⟩ | ⟨-, hstart, -⟩
        · exact hmountedRoot (hsame.symm.trans hstart)
        · rw [hsame] at hstart
          exact hroot (hpar.symm.trans hstart)
  rcases hnames with ⟨rfl, rfl⟩ | ⟨hne, found, hwalk, rfl⟩
  · rcases hothers with ⟨rfl, -⟩ | ⟨hne, found, hwalk, hsame⟩
    · rfl
    · exact absurd hsame (hmixed hne hwalk)
  · rcases hothers with ⟨rfl, hsame⟩ | ⟨-, other, hother, hsame⟩
    · exact absurd hsame.symm (hmixed hne hwalk)
    · obtain rfl := htree.enter_inj hwalk hother hsame
      exact htree.walk_unique hwalk hother

end Walks

end DionysOS.Filesystem.CanonicalPath
