import DionysOS.Filesystem.Diosfs

/-!
# The blocks of an inode

An inode names its first ten blocks itself. The blocks after them are the leaves of three trees of
pointer blocks, of depth one, two and three, and `block_count` says how many leaves are in use.
`blocksOf` lists every block that an inode uses, `dataBlocks` only the leaves.
-/

namespace DionysOS.Filesystem.Diosfs

open Foundation.ByteRecords
open Vfs (DIOSFS_BLOCKSIZE NUM_BLOCKS_DIRECT)

def NUM_BLOCKS_IN_INDIRECTION_BLOCK : ℕ := DIOSFS_BLOCKSIZE / 8

def pointers (block : Bytes) : List ℕ :=
  (List.range NUM_BLOCKS_IN_INDIRECTION_BLOCK).map fun index ↦ load block 8 (8 * index)

@[simp]
theorem length_pointers (block : Bytes) :
    (pointers block).length = NUM_BLOCKS_IN_INDIRECTION_BLOCK := by
  simp [pointers]

/-- Share `count` leaves out over subtrees, from the first one on, and collect what `visit` lists of
each subtree in use. A subtree may be offered more than it can hold. -/
def spread {α : Type*} (capacity : α → ℕ) (visit : ℕ → α → List ℕ) : ℕ → List α → List ℕ
  | _, [] => []
  | count, root :: roots =>
      if count = 0 then []
      else visit count root ++ spread capacity visit (count - capacity root) roots

/-- The blocks of a tree of pointer blocks with `count` leaves in use, or as many as it can hold. -/
def treeBlocks (disk : ℕ → Bytes) : ℕ → ℕ → ℕ → List ℕ
  | 0, _, root => [root]
  | depth + 1, count, root =>
      root :: spread (fun _ ↦ NUM_BLOCKS_IN_INDIRECTION_BLOCK ^ depth) (treeBlocks disk depth) count
        (pointers (disk root))

def treeLeaves (disk : ℕ → Bytes) : ℕ → ℕ → ℕ → List ℕ
  | 0, _, root => [root]
  | depth + 1, count, root =>
      spread (fun _ ↦ NUM_BLOCKS_IN_INDIRECTION_BLOCK ^ depth) (treeLeaves disk depth) count
        (pointers (disk root))

/-- The trees of an inode, with their depths: a direct block is a tree of depth zero. -/
def roots (inode : Inode) : List (ℕ × ℕ) :=
  inode.blocks.toList.map (fun block ↦ (0, block)) ++
    [(1, inode.singleIndirect), (2, inode.doubleIndirect), (3, inode.tripleIndirect)]

def blocksOf (disk : ℕ → Bytes) (inode : Inode) : List ℕ :=
  spread (fun root ↦ NUM_BLOCKS_IN_INDIRECTION_BLOCK ^ root.1)
    (fun count root ↦ treeBlocks disk root.1 count root.2) inode.blockCount (roots inode)

def dataBlocks (disk : ℕ → Bytes) (inode : Inode) : List ℕ :=
  spread (fun root ↦ NUM_BLOCKS_IN_INDIRECTION_BLOCK ^ root.1)
    (fun count root ↦ treeLeaves disk root.1 count root.2) inode.blockCount (roots inode)

def directBlocks (inode : Inode) : List ℕ := inode.blocks.toList.take inode.blockCount

end DionysOS.Filesystem.Diosfs
