import DionysOS.Definitions.Strings

/-!
# Path resolution in the virtual file system

`vnode_lookup` of `vfs.c` with what it calls: `parse_path`, `find_vnode_child`, and the lookup of
`diosfs.c`, which fills the children of a directory from the disk.

The vnodes are a tree: a vnode holds the vnodes that its children array points to, and the root of
the file system mounted on it. A pointer into the tree is the list of array indices that leads to
it. A call returns the tree with its directories filled, and the pointer. `none` is an access
outside an array or a call through a null pointer.
-/

namespace DionysOS.Filesystem.Vfs

open Definitions.Strings

def VFS_MAX_NAME_LENGTH : ℕ := 128
def VNODE_MAX_DIRECTORY_ENTRIES : ℕ := 64
def DIOSFS_BLOCKSIZE : ℕ := 1024
def NUM_BLOCKS_DIRECT : ℕ := 10
def ROOT_INODE : ℕ := 0

/-- `enum vnode_types`. -/
inductive VnodeType where
  | directory
  | file
  | hardLink
  | blockDev
  | charDev
  | netDev
  | special
  | specialFile
  | symLink
deriving DecidableEq, Repr

/-- The values of `vnode_filesystem_id`. -/
inductive FilesystemId where
  | vnodeRoot
  | tmpfs
  | diosfs
  | ext2
deriving DecidableEq, Repr

/-- The fields of `struct vnode` that path resolution works with, apart from its pointers. -/
structure Attributes where
  vnodeName : List Char
  vnodeType : VnodeType
  vnodeInodeNumber : ℕ
  vnodeFilesystemId : FilesystemId
  numChildren : ℕ
  isCached : Bool
  childMemoryAllocated : Bool
deriving DecidableEq, Repr

/-- `struct vnode`: the children array, where `none` is `NULL`, and the mounted vnode if the vnode is
a mount point. -/
inductive Vnode where
  | mk (attributes : Attributes) (vnodeChildren : List (Option Vnode)) (mountedVnode : Option Vnode)

namespace Vnode

def attributes : Vnode → Attributes
  | mk attributes _ _ => attributes

def vnodeChildren : Vnode → List (Option Vnode)
  | mk _ children _ => children

def mountedVnode : Vnode → Option Vnode
  | mk _ _ mounted => mounted

def vnodeName (vnode : Vnode) : List Char := vnode.attributes.vnodeName
def vnodeType (vnode : Vnode) : VnodeType := vnode.attributes.vnodeType
def vnodeInodeNumber (vnode : Vnode) : ℕ := vnode.attributes.vnodeInodeNumber
def numChildren (vnode : Vnode) : ℕ := vnode.attributes.numChildren
def isCached (vnode : Vnode) : Bool := vnode.attributes.isCached

/-- `vnode->vnode_children[index] = child`. -/
def setChild (vnode : Vnode) (index : ℕ) (child : Vnode) : Vnode :=
  mk vnode.attributes (vnode.vnodeChildren.set index (some child)) vnode.mountedVnode

/-- `vnode->mounted_vnode`, with the mounted vnode changed. -/
def setMounted (vnode mounted : Vnode) : Vnode :=
  mk vnode.attributes vnode.vnodeChildren (some mounted)

end Vnode

structure DirectoryEntry where
  name : List Char
  inodeNumber : ℕ
  type : VnodeType
  size : ℕ
deriving DecidableEq, Repr

/-- What a lookup reads of a directory's inode: three fields, and the entries in its blocks. -/
structure DirectoryInode where
  type : VnodeType
  size : ℕ
  blockCount : ℕ
  entries : List DirectoryEntry
deriving DecidableEq, Repr

abbrev Disk := ℕ → DirectoryInode

/-- The errors of `diosfs_get_directory_entries`. -/
inductive DiosfsError where
  | notADirectory
  | bufferTooSmall
deriving DecidableEq, Repr

/-- `diosfs_get_directory_entries` for a buffer of `childrenSize` bytes. -/
def diosfsGetDirectoryEntries (inode : DirectoryInode) (childrenSize : ℕ) :
    Option (Except DiosfsError (List DirectoryEntry)) :=
  if inode.type ≠ .directory then some (.error .notADirectory)
  else if childrenSize < inode.blockCount * DIOSFS_BLOCKSIZE then some (.error .bufferTooSmall)
  else if inode.entries.length < inode.size then none
  else some (.ok (inode.entries.take inode.size))

def diosfsDirectoryEntryToVnode (entry : DirectoryEntry) : Vnode :=
  .mk { vnodeName := entry.name
        vnodeType := entry.type
        vnodeInodeNumber := entry.inodeNumber
        vnodeFilesystemId := .diosfs
        numChildren := if entry.type = .directory then entry.size % 2 ^ 8 else 0
        isCached := false
        childMemoryAllocated := false } [] none

/-- Put the vnode of an entry into the children array. -/
def addChild (parent : Vnode) (index : ℕ) (entry : DirectoryEntry) : Vnode :=
  let filled := parent.setChild index (diosfsDirectoryEntryToVnode entry)
  .mk { filled.attributes with numChildren := (parent.numChildren + 1) % 2 ^ 8 }
    filled.vnodeChildren filled.mountedVnode

/-- The loop of `diosfs_lookup` over the entries, from number `index` on. -/
def fillChildren (name : List Char) (fillVnode : Bool) :
    List DirectoryEntry → ℕ → Vnode → Option ℕ → Vnode × Option ℕ
  | [], _, parent, child => (parent, child)
  | entry :: entries, index, parent, child =>
      if child = none ∧ safeStrcmp name entry.name VFS_MAX_NAME_LENGTH = true then
        if !fillVnode then (addChild parent index entry, some index)
        else fillChildren name fillVnode entries (index + 1) (addChild parent index entry) (some index)
      else if fillVnode then
        fillChildren name fillVnode entries (index + 1) (addChild parent index entry) child
      else fillChildren name fillVnode entries (index + 1) parent child

/-- The children array that both allocation sites leave; what `kmalloc` leaves in it is not read. -/
def allocChildren (vnode : Vnode) : Vnode :=
  if vnode.attributes.childMemoryAllocated then vnode
  else
    .mk { vnode.attributes with childMemoryAllocated := true }
      (List.replicate VNODE_MAX_DIRECTORY_ENTRIES none) vnode.mountedVnode

/-- `diosfs_lookup`: the parent, and the index of the child or `none` for `NULL`. -/
def diosfsLookup (disk : Disk) (parent : Vnode) (name : List Char) : Option (Vnode × Option ℕ) :=
  let inode := disk parent.vnodeInodeNumber
  if parent.attributes.vnodeFilesystemId ≠ .diosfs ∨ parent.vnodeType ≠ .directory then
    some (parent, none)
  else if inode.size = 0 then some (parent, none)
  else
    match diosfsGetDirectoryEntries inode (DIOSFS_BLOCKSIZE * NUM_BLOCKS_DIRECT) with
    | none => none
    | some (.error _) => some (parent, none)
    | some (.ok entries) =>
        let cached := parent.isCached ||
          (parent.numChildren == inode.size && (parent.vnodeChildren.head?.join).isSome)
        let parent := allocChildren (.mk { parent.attributes with isCached := cached }
          parent.vnodeChildren parent.mountedVnode)
        some (fillChildren name (!cached)
          (entries.take (min inode.size VNODE_MAX_DIRECTORY_ENTRIES)) 0 parent none)

/-- The loop of `find_vnode_child` over `remaining` children, from `index` on. -/
def findChild (children : List (Option Vnode)) (token : List Char) :
    ℕ → ℕ → Option (Option ℕ)
  | 0, _ => some none
  | remaining + 1, index =>
      match children[index]? with
      | none => none
      | some none => findChild children token remaining (index + 1)
      | some (some child) =>
          if safeStrcmp child.vnodeName token VFS_MAX_NAME_LENGTH then some (some index)
          else findChild children token remaining (index + 1)

/-- `find_vnode_child`, behind the mount point. Only diosfs has directories that are not cached; the
root of the virtual file system has no operations. -/
def searchDirectory (disk : Disk) (vnode : Vnode) (token : List Char) :
    Option (Vnode × Option ℕ) :=
  if vnode.isCached = false ∧ vnode.numChildren = 0 then
    if vnode.attributes.vnodeFilesystemId ≠ .diosfs then none
    else do
      let (vnode, child) ← diosfsLookup disk vnode token
      some (.mk { vnode.attributes with isCached := true } vnode.vnodeChildren vnode.mountedVnode,
        child)
  else do
    let vnode := allocChildren vnode
    let child ← findChild vnode.vnodeChildren token vnode.numChildren 0
    some (vnode, child)

/-- `find_vnode_child`: the vnode, and the index of the child in its array or in that of the mounted
vnode. -/
def findVnodeChild (disk : Disk) (vnode : Vnode) (token : List Char) :
    Option (Vnode × Option ℕ) :=
  if vnode.vnodeType ≠ .directory then some (vnode, none)
  else
    match vnode.mountedVnode with
    | some mounted => do
        let (mounted, child) ← searchDirectory disk mounted token
        some (vnode.setMounted mounted, child)
    | none => searchDirectory disk vnode token

/-- The vnode whose children array is meant: the mounted one on a mount point. -/
def entered (vnode : Vnode) : Vnode := vnode.mountedVnode.getD vnode

/-- Replace child number `index` of a vnode, or of the vnode mounted on it. -/
def replaceChild (vnode : Vnode) (index : ℕ) (child : Vnode) : Vnode :=
  match vnode.mountedVnode with
  | some mounted => vnode.setMounted (mounted.setChild index child)
  | none => vnode.setChild index child

/-- A pointer to a vnode: the indices that lead to it, and whether it is the vnode mounted there. -/
structure Pointer where
  position : List ℕ
  mounted : Bool
deriving DecidableEq, Repr

/-- The loop of `parse_path`, with `tokenNumber` the token to read next. -/
def followPath (disk : Disk) (path : List Char) :
    ℕ → ℕ → Vnode → Option (Vnode × Option Pointer)
  | 0, _, _ => none
  | fuel + 1, tokenNumber, vnode => do
      let (token, last) ← strtok VFS_MAX_NAME_LENGTH path '/' tokenNumber
      let (vnode, found) ← findVnodeChild disk vnode token
      match found with
      | none => some (vnode, none)
      | some index => do
          let child ← ((entered vnode).vnodeChildren[index]?).join
          if last then some (vnode, some ⟨[index], child.mountedVnode.isSome⟩)
          else do
            let (child, pointer) ← followPath disk path fuel (tokenNumber + 1) child
            some (replaceChild vnode index child,
              pointer.map fun pointer ↦ ⟨index :: pointer.position, pointer.mounted⟩)

/-- `parse_path` for a path that starts with a slash. Each round reads another token of the path. -/
def parsePath (disk : Disk) (root : Vnode) (path : List Char) : Option (Vnode × Option Pointer) :=
  let path := path.dropWhile (· == '/')
  if path = [] then some (root, some ⟨[], root.mountedVnode.isSome⟩)
  else
    match root.mountedVnode with
    | some mounted => do
        let (mounted, pointer) ← followPath disk path path.length 1 mounted
        some (root.setMounted mounted, pointer)
    | none => followPath disk path path.length 1 root

/-- `vnode_lookup` for a path that starts with a slash. -/
def vnodeLookup (disk : Disk) (root : Vnode) (path : List Char) : Option (Vnode × Option Pointer) :=
  parsePath disk root path

end DionysOS.Filesystem.Vfs
