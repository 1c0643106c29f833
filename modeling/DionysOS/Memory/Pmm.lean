import DionysOS.DataStructures.BinaryTreeRefinement
import DionysOS.DataStructures.HashTable
import DionysOS.Foundation.BubbleSort

/-!
# The physical memory manager

The buddy allocator of `pmm.c`. Block descriptors live in a memory indexed by address, the two
free trees are the multimaps that the binary tree refines, and the table of used blocks is the
static hash table over the list nodes. Lists that are only used at their head, the unused
descriptors and the spare pages, are plain lists.

A call runs under the allocator's lock and is one step. `none` is a panic, a null dereference or an
access outside an array. Descriptors beyond the static pool come from `_kalloc`; the addresses it
would return are an argument of the call.
-/

namespace DionysOS.Memory.Pmm

open DataStructures
open DataStructures.HashTable
open DataStructures.BinaryTree (Multimap multimapStep)
open DataStructures.SinglyLinkedList (NodeStore)

def PAGE_SIZE : ℕ := 4096
def MAX_ORDER : ℕ := 10
def STATIC_POOL_SIZE : ℕ := 48000
def PAGE_RANGE_SIZE : ℕ := 20
def KERNEL_POOL : ℕ := 0
def USER_POOL : ℕ := 1

/-- The number of elements of `buddy_free_list_zone`. -/
def ZONES : ℕ := 2

/-- `UNUSED` in a 64-bit field. -/
def UNUSED : ℕ := 2 ^ 64 - 1

/-- `UNUSED` in an 8-bit field. -/
def UNUSED_BYTE : ℕ := 255

/-- The values of `is_free`: zero-filled memory, `FREE`, `USED` and the low byte of `UNUSED`. -/
inductive Status where
  | clear
  | free
  | used
  | unused
deriving DecidableEq, Repr

/-- `struct buddy_block`, with the three bits of `flags` as Boolean fields. -/
structure BuddyBlock where
  next : Ptr
  zone : ℕ
  startAddress : ℕ
  staticPoolFlag : Bool
  firstBlockFlag : Bool
  inTreeFlag : Bool
  order : ℕ
  isFree : Status
  buddyChainLength : ℕ
deriving DecidableEq, Repr

def BuddyBlock.zero : BuddyBlock := ⟨NULL, 0, 0, false, false, false, 0, .clear, 0⟩

abbrev BlockMemory := Ptr → BuddyBlock

/-- The globals of `pmm.c`, with the list nodes of the hash table and the descriptors that
`_kalloc` has handed out and not got back. -/
structure State where
  blocks : BlockMemory
  buddyFreeListZone : ℕ → Multimap
  unusedBuddyBlocksList : List Ptr
  usedBuddyHashTable : StaticHashTable
  lists : NodeStore
  kallocLive : List Ptr
  totalAllocated : ℕ
  sparePageList : List ℕ
  lowestUserPhysAddr : ℕ
  highestUserPhysAddr : ℕ

/-- What `_kalloc` would return during one call: descriptors one after the other, and a list
node. -/
structure Allocation where
  descriptors : List Ptr
  listNode : Ptr
deriving DecidableEq, Repr

/-- The address of element `index` of `buddy_block_static_pool`. -/
def descriptor (index : ℕ) : Ptr := index + 1

def State.setBlock (state : State) (block : Ptr) (header : BuddyBlock) : State :=
  { state with blocks := Function.update state.blocks block header }

/-- A call on the tree of `zone`, which behaves as a multimap. -/
def State.onTree (state : State) (zone : ℕ) (operation : BinaryTree.Operation) :
    Option (State × ℕ) :=
  if zone < ZONES then
    let (tree, result) := multimapStep (state.buddyFreeListZone zone) operation
    some ({ state with buddyFreeListZone := Function.update state.buddyFreeListZone zone tree },
      result)
  else none

/-- `lookup_tree(&buddy_free_list_zone[zone], order, REMOVE_FROM_TREE)`. -/
def lookupTree (state : State) (zone order : ℕ) : Option (State × Ptr) :=
  state.onTree zone (.lookupRemove order)

/-- `insert_tree_node(&buddy_free_list_zone[zone], block, order)`. -/
def insertTreeNode (state : State) (zone : ℕ) (block : Ptr) (order : ℕ) : Option State :=
  (state.onTree zone (.insert block order ⟨NULL, NULL⟩)).map Prod.fst

/-- `remove_tree_node(&buddy_free_list_zone[zone], order, block, NULL)`. -/
def removeTreeNode (state : State) (zone order : ℕ) (block : Ptr) : Option State :=
  (state.onTree zone (.remove order block)).map Prod.fst

/-- `buddy_block_get`. The slab allocator returns zero-filled memory. -/
def buddyBlockGet (state : State) (supply : List Ptr) : Option (State × Ptr × List Ptr) :=
  match state.unusedBuddyBlocksList, supply with
  | block :: rest, supply => some ({ state with unusedBuddyBlocksList := rest }, block, supply)
  | [], [] => none
  | [], block :: supply =>
      some ({ state.setBlock block BuddyBlock.zero with
        kallocLive := block :: state.kallocLive }, block, supply)

/-- `buddy_split`. It returns the block it was given; where it returns `NULL`, `buddy_alloc`
panics. -/
def buddySplit (state : State) (block : Ptr) (supply : List Ptr) :
    Option (State × List Ptr) := do
  let header := state.blocks block
  let state ←
    if header.inTreeFlag then do
      let state ← removeTreeNode state header.zone header.order block
      pure (state.setBlock block { header with inTreeFlag := false })
    else pure state
  let header := state.blocks block
  if header.order > MAX_ORDER ∨ header.order = 0 ∨ header.isFree = .used then none
  else
    let (state, newBlock, supply) ← buddyBlockGet state supply
    let order := header.order - 1
    let created := { state.blocks newBlock with
      next := header.next
      order := order
      startAddress := header.startAddress + 2 ^ order * PAGE_SIZE
      zone := header.zone
      isFree := .free
      inTreeFlag := true }
    let state := state.setBlock block { header with next := newBlock, order := order }
    let state ← insertTreeNode (state.setBlock newBlock created) header.zone newBlock order
    pure (state, supply)

/-- The loop of `buddy_alloc` that splits `block` until its order is `order`. -/
def splitDown (block : Ptr) (order : ℕ) : ℕ → State → List Ptr → Option State
  | 0, _, _ => none
  | fuel + 1, state, supply =>
      if (state.blocks block).order = order then some state
      else if (state.blocks block).order > MAX_ORDER then none
      else do
        let (state, supply) ← buddySplit state block supply
        splitDown block order fuel state supply

/-- `static_hash_table_insert(&used_buddy_hash_table, block->start_address, block)`. -/
def insertUsed (state : State) (block : Ptr) (allocation : Allocation) : Option State := do
  let (lists, table) ← staticHashTableInsert state.lists state.usedBuddyHashTable
    (state.blocks block).startAddress block allocation.listNode
  pure { state with lists := lists, usedBuddyHashTable := table }

/-- The loop of `buddy_alloc` over the orders from `index` on. A block filed under too high an
order is thrown away, and a block at address zero is passed over. -/
def searchLarger (zone order : ℕ) (allocation : Allocation) :
    ℕ → State → ℕ → Option (State × Ptr)
  | 0, _, _ => none
  | fuel + 1, state, index =>
      if index ≤ MAX_ORDER then do
        let (state, block) ← lookupTree state zone index
        let header := state.blocks block
        if block ≠ NULL ∧ header.startAddress ≠ 0 ∧ index ≤ header.order then
          let state := state.setBlock block { header with inTreeFlag := false }
          let state ← splitDown block order (MAX_ORDER + 1) state allocation.descriptors
          let state ← insertUsed state block allocation
          pure (state, block)
        else if block ≠ NULL ∧ header.order < index then
          let state ← removeTreeNode state zone index block
          searchLarger zone order allocation fuel state index
        else searchLarger zone order allocation fuel state (index + 1)
      else some (state, NULL)

def filedBlocks (state : State) (zone : ℕ) : List Ptr :=
  (List.range (MAX_ORDER + 1)).flatMap (state.buddyFreeListZone zone)

/-- The body of the loop of `buddy_alloc` for the order that fits. The search over larger orders
takes a block out of the tree or moves on to the next order in every round. -/
def allocOrder (state : State) (order zone : ℕ) (allocation : Allocation) :
    Option (State × Ptr) := do
  let (popped, block) ← lookupTree state zone order
  if block = NULL then
    searchLarger zone order allocation ((filedBlocks state zone).length + MAX_ORDER + 2) popped
      (order + 1)
  else
    let used ← insertUsed popped block allocation
    pure (used.setBlock block { used.blocks block with inTreeFlag := false }, block)

def isPowerOfTwo (pages : ℕ) : Bool :=
  let x := BitVec.ofNat 64 pages
  x != 0 && (x &&& (x - 1)) == 0

def nextPowerOfTwo (pages : ℕ) : ℕ :=
  let x := BitVec.ofNat 64 pages
  if x = 0 then 1
  else
    let x := x - 1
    let x := x ||| x >>> 1
    let x := x ||| x >>> 2
    let x := x ||| x >>> 4
    let x := x ||| x >>> 8
    let x := x ||| x >>> 16
    let x := x ||| x >>> 32
    (x + 1).toNat

/-- The number of pages that `buddy_alloc` looks for. -/
def roundedPages (pages : ℕ) : ℕ := if isPowerOfTwo pages then pages else nextPowerOfTwo pages

/-- The first loop of `buddy_alloc_large_range`: how many blocks of the chain behind `pointer` are
of the maximal order and in the zone of their predecessor, up to `remaining`. -/
def walkChain (blocks : BlockMemory) : ℕ → Ptr → Option ℕ
  | 0, pointer => if (blocks pointer).next = NULL then none else some 0
  | remaining + 1, pointer =>
      let next := (blocks pointer).next
      if next = NULL then none
      else if (blocks next).order = MAX_ORDER ∧ (blocks pointer).zone = (blocks next).zone then
        (walkChain blocks remaining next).map (· + 1)
      else some 0

/-- The second loop: take `remaining` blocks from `pointer` on out of the tree. -/
def takeChain (zone : ℕ) : ℕ → State → Ptr → Option State
  | 0, state, _ => some state
  | remaining + 1, state, pointer =>
      if pointer = NULL then none
      else do
        let state ← removeTreeNode state zone (state.blocks pointer).order pointer
        let state := state.setBlock pointer { state.blocks pointer with isFree := .used }
        takeChain zone remaining state (state.blocks pointer).next

/-- Take blocks filed under the maximal order until one has that order. -/
def skipWrongOrder (zone : ℕ) : ℕ → State → Ptr → Option (State × Ptr)
  | 0, _, _ => none
  | fuel + 1, state, block =>
      if block ≠ NULL ∧ (state.blocks block).order ≠ MAX_ORDER then do
        let (state, block) ← lookupTree state zone MAX_ORDER
        skipWrongOrder zone fuel state block
      else some (state, block)

/-- `max_blocks`. `%` binds tighter than `<<`, so the second summand is zero. -/
def maxBlocks (pages : ℕ) : ℕ :=
  pages / 2 ^ MAX_ORDER + if (pages % 1) <<< MAX_ORDER ≠ 0 then 1 else 0

/-- The code of `buddy_alloc_large_range` from the label `retry` on, with the number of attempts
left before it gives up. -/
def largeAttempt (pages zone : ℕ) : ℕ → State → Option (State × Ptr)
  | 0, _ => none
  | attempts + 1, state => do
      let (popped, pointer) ← lookupTree state zone MAX_ORDER
      if pointer = NULL then largeAttempt pages zone attempts popped
      else
        let (popped, block) ← skipWrongOrder zone
          ((popped.buddyFreeListZone zone MAX_ORDER).length + 2) popped pointer
        if block = NULL then largeAttempt pages zone attempts popped
        else
          let following ← walkChain popped.blocks (maxBlocks pages - 1) pointer
          if 1 + following < maxBlocks pages then
            let state ← insertTreeNode popped zone block (popped.blocks block).order
            largeAttempt pages zone attempts state
          else
            let state := popped.setBlock block { popped.blocks block with
              buddyChainLength := maxBlocks pages, inTreeFlag := false }
            let state ← takeChain zone (maxBlocks pages - 1) state (state.blocks block).next
            pure ({ state with totalAllocated :=
              (state.totalAllocated + 2 ^ MAX_ORDER * maxBlocks pages) % 2 ^ 64 }, block)

/-- `buddy_alloc_large_range`: `retry_count` runs from 0 to 500. -/
def buddyAllocLargeRange (state : State) (pages zone : ℕ) : Option (State × Ptr) :=
  largeAttempt pages zone 501 state

/-- `buddy_alloc`. The loop over the orders below `MAX_ORDER` acts for one order at most. -/
def buddyAlloc (state : State) (pages zone : ℕ) (allocation : Allocation) :
    Option (State × Ptr) :=
  if pages > 2 ^ MAX_ORDER then buddyAllocLargeRange state pages zone
  else
    match (List.range MAX_ORDER).find? fun order ↦ roundedPages pages == 2 ^ order with
    | none => some (state, NULL)
    | some order => allocOrder state order zone allocation

def physAlloc (state : State) (pages zone : ℕ) (allocation : Allocation) :
    Option (State × ℕ) := do
  let (state, block) ← buddyAlloc state pages zone allocation
  if block = NULL then none
  else
    let header := state.blocks block
    pure ({ state.setBlock block { header with isFree := .used } with
      totalAllocated := (state.totalAllocated + 2 ^ header.order) % 2 ^ 64 }, header.startAddress)

def buddyBlockFree (state : State) (block : Ptr) : Option State := do
  let header := state.blocks block
  let state ←
    if header.inTreeFlag then removeTreeNode state header.zone header.order block else pure state
  if header.staticPoolFlag then
    pure { state.setBlock block ⟨NULL, UNUSED, 0, true, false, false, UNUSED_BYTE, .unused, 0⟩ with
      unusedBuddyBlocksList := block :: state.unusedBuddyBlocksList }
  else pure { state with kallocLive := state.kallocLive.erase block }

/-- Mark the block and put it into the tree of its zone. -/
def fileFree (state : State) (block : Ptr) : Option State :=
  let header := state.blocks block
  insertTreeNode (state.setBlock block { header with inTreeFlag := true }) header.zone block
    header.order

/-- The condition under which `buddy_coalesce` merges a block with its successor. -/
def Mergeable (block next : BuddyBlock) : Prop :=
  block.order = next.order ∧ (block.isFree = .free ∧ next.isFree = .free) ∧
    (block.zone = next.zone ∧ next.firstBlockFlag = false)

instance (block next : BuddyBlock) : Decidable (Mergeable block next) :=
  instDecidableAnd

def buddyCoalesce (state : State) (block : Ptr) : Option State :=
  let header := state.blocks block
  if block = NULL then some state
  else if header.next = NULL then fileFree state block
  else if header.order = MAX_ORDER then fileFree state block
  else if Mergeable header (state.blocks header.next) then do
    let next := header.next
    let state := state.setBlock block
      { header with next := (state.blocks next).next, order := header.order + 1 }
    let state ← buddyBlockFree state next
    fileFree state block
  -- The block is in no tree and in no table from here on.
  else some state

/-- The walk of `buddy_free` over the bucket of `address`; `NULL` if no used block starts there. -/
def findUsed (state : State) (address : ℕ) : Option Ptr := do
  let bucket ← staticHashTableRetrieve state.usedBuddyHashTable
    (hash address HASH_TABLE_STATIC_POOL_SIZE)
  findData state.lists.nodes (fun block ↦ (state.blocks block).startAddress == address)
    (bucket.nodeCount + 1) bucket.head

/-- `buddy_free`. An address that is not in the table goes to the slab allocator, which does not
touch the state of this module. -/
def buddyFree (state : State) (address : ℕ) : Option State := do
  let block ← findUsed state address
  if block = NULL then pure state
  else
    let (lists, table, status) ← removeFromBucket state.lists state.usedBuddyHashTable
      (hash address HASH_TABLE_STATIC_POOL_SIZE) block
    if status = SinglyLinkedList.NODE_NOT_FOUND then none
    else
      let header := state.blocks block
      let state := { state with
        lists := lists
        usedBuddyHashTable := table
        totalAllocated := (state.totalAllocated + 2 ^ 64 - 2 ^ header.order) % 2 ^ 64 }
      buddyCoalesce (state.setBlock block { header with isFree := .free, inTreeFlag := false })
        block

def physDealloc (state : State) (address : ℕ) : Option State := buddyFree state address

end DionysOS.Memory.Pmm
