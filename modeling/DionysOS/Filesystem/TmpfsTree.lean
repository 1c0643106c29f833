import DionysOS.DataStructures.SinglyLinkedList
import DionysOS.Filesystem.Tmpfs
import DionysOS.Filesystem.Vfs
import DionysOS.Foundation.ByteRecords

/-!
# The node tree of tmpfs

`tmpfs_create` and `tmpfs_remove` of `tmpfs.c` with what they call, over a memory of `struct
tmpfs_node`. A directory has an array of pointers to its children; the tree of the superblock, which
finds the node of a vnode by its number, is a map. The bitmap of node numbers is shared by all
tmpfs file systems.

What a removal should do is recorded beside the state: the nodes that are live, the nodes that
removals have taken out, and the nodes that were passed to `kfree`. `none` is a panic, a null
dereference, an access outside an array or a name that does not fit into its field.
-/

namespace DionysOS.Filesystem.TmpfsTree

open DataStructures (Ptr NULL)
open Foundation.ByteRecords (firstFree)
open Tmpfs (PAGE_SIZE PAGES_PER_TMPFS_ENTRY PageListEntry TmpfsNode tmpfsWrite)
open Vfs (VnodeType VFS_MAX_NAME_LENGTH)

def MAX_TMPFS_ENTRIES : ℕ := Vfs.VNODE_MAX_DIRECTORY_ENTRIES

/-- `sizeof(struct tmpfs_node)`. -/
def NODE_SIZE : ℕ := 192

/-- The bits of `tmpfs_node_number_bitmap`. -/
def NODE_NUMBERS : ℕ := PAGE_SIZE * 8

/-- `struct tmpfs_node`; the size is inherited and counts the children of a directory. -/
structure Node extends TmpfsNode where
  parent : Ptr
  nodeName : List Char
  tmpfsNodeNumber : ℕ
  nodeType : VnodeType
  entries : ℕ → Ptr

/-- The fields of `struct vnode` that the calls read. -/
structure Vnode where
  vnodeInodeNumber : ℕ
  vnodeType : VnodeType
deriving DecidableEq, Repr

/-- The nodes, the tree and the node count of the superblock, and the bitmap of numbers. -/
structure State where
  nodes : Ptr → Node
  nodeTree : ℕ → Option Ptr
  nodeCount : ℕ
  bitmap : ℕ → Bool
  live : List Ptr
  removed : List Ptr
  released : List Ptr

namespace State

@[simps -fullyApplied]
def setNode (state : State) (address : Ptr) (node : Node) : State :=
  { state with nodes := Function.update state.nodes address node }

@[simps -fullyApplied]
def insertTreeNode (state : State) (number : ℕ) (address : Ptr) : State :=
  { state with nodeTree := Function.update state.nodeTree number (some address)
               nodeCount := state.nodeCount + 1 }

/-- `remove_tree_node` in the tree of the superblock. -/
@[simps -fullyApplied]
def removeTreeNode (state : State) (number : ℕ) (address : Ptr) : State :=
  { state with nodeTree :=
      if state.nodeTree number = some address then Function.update state.nodeTree number none
      else state.nodeTree }

@[simps -fullyApplied]
def setBit (state : State) (number : ℕ) (bit : Bool) : State :=
  { state with bitmap := Function.update state.bitmap number bit }

/-- The children of a directory, as its array has them. -/
def children (state : State) (directory : Ptr) : List Ptr :=
  (List.range (state.nodes directory).tmpfsNodeSize).map (state.nodes directory).entries

/-- The node is `current` or one of its next ancestors. -/
def isAbove (state : State) (node : Ptr) : ℕ → Ptr → Bool
  | 0, current => current == node
  | fuel + 1, current => current == node || isAbove state node fuel (state.nodes current).parent

def subtree (state : State) (node : Ptr) : List Ptr :=
  state.live.filter (state.isAbove node state.live.length)

/-- What becomes of the records when a node is removed with its subtree, and `kfree` called for it. -/
@[simps -fullyApplied]
def retire (state : State) (subtree : List Ptr) (node : Ptr) : State :=
  { state with live := state.live.filter (· ∉ subtree)
               removed := state.removed ++ subtree
               released := state.released ++ [node] }

end State

def nodeBitmapGet (state : State) : Option (ℕ × State) := do
  let number ← firstFree state.bitmap NODE_NUMBERS 0
  some (number, state.setBit number true)

def nodeBitmapFree (state : State) (number : ℕ) : State := state.setBit number false

/-- The types of nodes that `conjure_new_tmpfs_node` makes. -/
def Creatable (type : VnodeType) : Prop := type = .directory ∨ type = .file ∨ type = .symLink

instance : DecidablePred Creatable := fun _ ↦ instDecidableOr

def conjureNewTmpfsNode (name : List Char) (type : VnodeType) : Option Node :=
  if name.length < VFS_MAX_NAME_LENGTH ∧ Creatable type then
    some ⟨TmpfsNode.new, NULL, name, 0, type, fun _ ↦ NULL⟩
  else none

/-- `insert_tmpfs_node_into_parent_directory_entries`. -/
def insertIntoParentDirectoryEntries (state : State) (address : Ptr) : Option State :=
  let parent := (state.nodes address).parent
  let node := state.nodes parent
  if node.nodeType ≠ .directory ∨ MAX_TMPFS_ENTRIES ≤ node.tmpfsNodeSize then none
  else
    some (state.setNode parent { node with
      entries := Function.update node.entries node.tmpfsNodeSize address
      tmpfsNodeSize := node.tmpfsNodeSize + 1 })

/-- `tmpfs_create`, with the address that `kmalloc` returns for the node. -/
def create (state : State) (parent : Vnode) (name : List Char) (type : VnodeType) (address : Ptr) :
    Option (State × Vnode) := do
  let parentNode ← state.nodeTree parent.vnodeInodeNumber
  let child ← conjureNewTmpfsNode name type
  let (number, state) ← nodeBitmapGet state
  let child := { child with tmpfsNodeNumber := number, parent := parentNode }
  let state := (state.setNode address child).insertTreeNode number address
  let state ← insertIntoParentDirectoryEntries state address
  some ({ state with live := address :: state.live }, ⟨number, type⟩)

/-- `free_page_list_entry`. It counts from `number_of_pages` down, so its first index is outside an
array that is full. -/
def freePageListEntry (entry : PageListEntry) : Option Unit :=
  if entry.numberOfPages < PAGES_PER_TMPFS_ENTRY then some () else none

/-- The loop of `tmpfs_remove_all_data_pages`. -/
def freeEntries : ℕ → List PageListEntry → Option Unit
  | 0, _ => some ()
  | _ + 1, [] => none
  | count + 1, entry :: entries => do
      freePageListEntry entry
      freeEntries count entries

def removeAllDataPages (node : Node) : Option Unit :=
  freeEntries (node.tmpfsNodeSize / (PAGE_SIZE * PAGES_PER_TMPFS_ENTRY) + 1) node.pageList

def deleteRegFile (state : State) (address : Ptr) : Option State := do
  let node := state.nodes address
  removeAllDataPages node
  some (nodeBitmapFree (state.removeTreeNode node.tmpfsNodeNumber address) node.tmpfsNodeNumber)

/-- `tmpfs_delete_directory_recursively`. The directory itself is released in every round of the
loop, and not at all if it has no children. -/
def deleteDirectoryRecursively : ℕ → State → Ptr → Option State
  | 0, _, _ => none
  | fuel + 1, state, address =>
      (List.range (state.nodes address).tmpfsNodeSize).foldlM (fun state index ↦ do
        let node := state.nodes address
        let current := node.entries index
        let state :=
          nodeBitmapFree (state.removeTreeNode node.tmpfsNodeNumber address) node.tmpfsNodeNumber
        match (state.nodes current).nodeType with
        | .directory => deleteDirectoryRecursively fuel state current
        | .file => deleteRegFile state current
        | _ => none) state

/-- The search of `tmpfs_remove_dirent_in_parent_directory`. It advances the pointer to the first
child by the size of a node, and not to the next element of the array. -/
def findDirent (node : Ptr) : ℕ → Ptr → ℕ → Option ℕ
  | 0, _, _ => none
  | fuel + 1, current, index =>
      if current = NULL then none
      else if current = node then some index
      else findDirent node fuel ((current + NODE_SIZE) % 2 ^ 64) (index + 1)

def removeDirentInParentDirectory (fuel : ℕ) (state : State) (address : Ptr) : Option State := do
  let parent := (state.nodes address).parent
  let node := state.nodes parent
  if parent = NULL then none
  let index ← findDirent address fuel (node.entries 0) 0
  if MAX_TMPFS_ENTRIES ≤ index ∨ node.tmpfsNodeSize = 0 then none
  else
    let entries := Function.update node.entries index NULL
    let entries := Function.update entries index (entries (node.tmpfsNodeSize - 1))
    some (state.setNode parent { node with
      entries := entries
      tmpfsNodeSize := node.tmpfsNodeSize - 1 })

/-- `tmpfs_remove`. -/
def remove (fuel : ℕ) (state : State) (vnode : Vnode) : Option State := do
  let address ← state.nodeTree vnode.vnodeInodeNumber
  let subtree := state.subtree address
  let state ←
    match vnode.vnodeType with
    | .file => deleteRegFile state address
    | .directory => deleteDirectoryRecursively fuel state address
    | .symLink => some state
    | _ => none
  let state ← removeDirentInParentDirectory fuel state address
  some (state.retire subtree address)

/-- A call on the file system. Files obtain their data from `tmpfs_write`. -/
inductive Operation where
  | create (parent : Vnode) (name : List Char) (type : VnodeType) (address : Ptr)
  | write (vnode : Vnode) (write : Tmpfs.Write)
  | remove (vnode : Vnode)

/-- `tmpfs_write` to the file of a vnode. -/
def write (state : State) (vnode : Vnode) (write : Tmpfs.Write) : Option State := do
  let address ← state.nodeTree vnode.vnodeInodeNumber
  let node := state.nodes address
  let (file, _) ← Tmpfs.step node.toTmpfsNode write
  some (state.setNode address { node with toTmpfsNode := file })

def step (fuel : ℕ) (state : State) : Operation → Option (State × Option Vnode)
  | .create parent name type address =>
      (create state parent name type address).map fun (state, vnode) ↦ (state, some vnode)
  | .write vnode data => (write state vnode data).map (·, none)
  | .remove vnode => (remove fuel state vnode).map (·, none)

/-- The root directory that `tmpfs_mkfs` makes, at the address that `kzmalloc` returns. -/
def mkfs (bitmap : ℕ → Bool) (address : Ptr) : Option State := do
  let zero : Node := ⟨TmpfsNode.new, NULL, [], 0, .directory, fun _ ↦ NULL⟩
  let empty : State := ⟨fun _ ↦ zero, fun _ ↦ none, 0, bitmap, [address], [], []⟩
  let (number, state) ← nodeBitmapGet empty
  let root := { zero with tmpfsNodeNumber := number, nodeName := "tmpfs".toList }
  some ((state.setNode address root).insertTreeNode number address)

end DionysOS.Filesystem.TmpfsTree
