import DionysOS.DataStructures.SinglyLinkedList

/-!
# The kernel's binary tree

The regular tree of `binary_tree.c`: a binary search tree whose nodes hold a bucket, a singly
linked list of the data inserted under the node's key. Tree nodes come from a static pool and,
once that is used up, from `kmalloc`, which returns zero-filled memory; the nodes of the buckets
come from the pool of the list module. The variants that the page allocator uses for its own two
trees differ only in the locks they take, so `node_alloc` and `node_free` stand for both.

Keys are compared as 64-bit numbers and stored as 32-bit ones. The functions that follow links
take fuel. Printed warnings are left out, and `panic` is a fault.
-/

namespace DionysOS.DataStructures.BinaryTree

/-- `struct binary_tree_node`, with the two bits of `flags` as Boolean fields. -/
structure Node where
  parent : Ptr
  left : Ptr
  right : Ptr
  key : ℕ
  data : SinglyLinkedList
  /-- `BINARY_TREE_NODE_STATIC_POOL`. -/
  staticPool : Bool
  /-- `BINARY_TREE_NODE_FREE`. -/
  free : Bool
deriving DecidableEq, Repr

def Node.zero : Node := ⟨NULL, NULL, NULL, 0, ⟨NULL, NULL, 0, false⟩, false, false⟩

abbrev NodeMemory := Ptr → Node

/-- `struct binary_tree` of mode `REGULAR_TREE`. -/
structure Tree where
  root : Ptr
  nodeCount : ℕ
deriving DecidableEq, Repr

/-- The globals of `binary_tree.c` and of the list module, with the tree nodes in use that came
from `kmalloc`. -/
structure Store where
  nodes : NodeMemory
  poolFull : Bool
  staticPoolInit : Bool
  live : List Ptr
  lists : SinglyLinkedList.NodeStore

/-- The addresses in `tree_node_static_pool` and in the static pool of the list module. -/
structure Pools where
  tree : List Ptr
  lists : List Ptr

/-- What the allocator returns if it is asked for a tree node or for a list node. -/
structure Allocation where
  treeNode : Ptr
  listNode : Ptr
deriving DecidableEq, Repr

def KERN_SUCCESS : ℕ := 0

def VALUE_NOT_FOUND : ℕ := 2

def load (nodes : NodeMemory) (address : Ptr) : Option Node :=
  if address = NULL then none else some (nodes address)

def modify (nodes : NodeMemory) (address : Ptr) (change : Node → Node) : Option NodeMemory :=
  if address = NULL then none else some (Function.update nodes address (change (nodes address)))

variable {addr : Ptr} {nodes : NodeMemory}

@[simp]
theorem load_of_ne (h : addr ≠ NULL) :
    load nodes addr = some (nodes addr) := by
  simp [load, h]

@[simp]
theorem modify_of_ne (h : addr ≠ NULL) (change : Node → Node) : modify nodes addr change =
      some (Function.update nodes addr (change (nodes addr))) := by
  simp [modify, h]

/-- `kmalloc` of a tree node, returning `fresh`. -/
def kmalloc (store : Store) (fresh : Ptr) : Store :=
  { store with nodes := Function.update store.nodes fresh Node.zero, live := fresh :: store.live }

def nodeAlloc (pool : List Ptr) (store : Store) (fresh : Ptr) : Store × Ptr :=
  if store.poolFull then (kmalloc store fresh, fresh)
  else
    match pool.find? fun address ↦ (store.nodes address).free with
    | some address =>
        ({ store with nodes := (Function.update store.nodes address
            { store.nodes address with free := false }) }, address)
    | none => (kmalloc { store with poolFull := true } fresh, fresh)

/-- `node_free`. A node of the static pool is first unhooked from the parent it still names: from
the right if the parent has it there, and from the left otherwise. -/
def nodeFree (store : Store) (address : Ptr) : Option Store := do
  let node ← load store.nodes address
  if node.staticPool then
    let nodes ← if node.parent = NULL then pure store.nodes
      else modify store.nodes node.parent fun parent ↦
        if parent.right = address then { parent with right := NULL }
        else { parent with left := NULL }
    let nodes ← modify nodes address fun node ↦ { node with
      free := true, parent := NULL, left := NULL, right := NULL, key := 0xFFFF }
    pure { store with nodes := nodes, poolFull := false }
  else
    pure { store with live := store.live.erase address }

/-- `init_tree` with mode `REGULAR_TREE`. -/
def initTree (pool : List Ptr) (store : Store) : Store × Tree :=
  let store := if store.staticPoolInit then store
    else { store with
      nodes := fun address ↦ if address ∈ pool
        then { store.nodes address with staticPool := true, free := true }
        else store.nodes address
      staticPoolInit := true }
  (store, ⟨NULL, 0⟩)

/-- The lines that allocate a node, put `data` into its new bucket and set its key. -/
def newNode (pools : Pools) (store : Store) (data : Ptr) (key : ℕ) (allocation : Allocation) :
    Option (Store × Ptr) := do
  let (store, address) := nodeAlloc pools.tree store allocation.treeNode
  let (lists, bucket) ← SinglyLinkedList.init pools.lists store.lists false
  let (lists, bucket) ← SinglyLinkedList.insertHead lists bucket data allocation.listNode
  let nodes ← modify store.nodes address fun node ↦
    { node with data := bucket, key := key % 2 ^ 32 }
  pure ({ store with nodes := nodes, lists := lists }, address)

/-- `insert_binary_tree` at a node with the key: append to its bucket. -/
def insertFound (store : Store) (tree : Tree) (data : Ptr) (allocation : Allocation)
    (current : Ptr) : Option (Store × Tree × ℕ) := do
  let bucket := (← load store.nodes current).data
  let (lists, bucket) ← SinglyLinkedList.insertTail store.lists bucket data allocation.listNode
  let nodes ← modify store.nodes current fun node ↦ { node with data := bucket }
  pure ({ store with nodes := nodes, lists := lists }, tree, KERN_SUCCESS)

/-- `insert_binary_tree` at a node without a child on the side of the key: hang a new node
there. -/
def insertUnder (pools : Pools) (store : Store) (tree : Tree) (data : Ptr) (key : ℕ)
    (allocation : Allocation) (current : Ptr) (toLeft : Bool) : Option (Store × Tree × ℕ) := do
  let (store, new) ← newNode pools store data key allocation
  let nodes ← modify store.nodes current fun node ↦
    if toLeft then { node with left := new } else { node with right := new }
  let nodes ← modify nodes new fun node ↦ { node with parent := current }
  pure ({ store with nodes := nodes }, { tree with nodeCount := tree.nodeCount + 1 },
    KERN_SUCCESS)

/-- The loop of `insert_binary_tree`. -/
def insertLoop (pools : Pools) (data : Ptr) (key : ℕ) (allocation : Allocation) :
    ℕ → Store → Tree → Ptr → Option (Store × Tree × ℕ)
  | 0, _, _, _ => none
  | fuel + 1, store, tree, current => do
      let node ← load store.nodes current
      if key = node.key then insertFound store tree data allocation current
      else if key < node.key then
        if node.left = NULL then insertUnder pools store tree data key allocation current true
        else insertLoop pools data key allocation fuel store tree node.left
      else
        if node.right = NULL then insertUnder pools store tree data key allocation current false
        else insertLoop pools data key allocation fuel store tree node.right

def insertBinaryTree (fuel : ℕ) (pools : Pools) (store : Store) (tree : Tree) (data : Ptr)
    (key : ℕ) (allocation : Allocation) : Option (Store × Tree × ℕ) := do
  if tree.root = NULL then
    let (store, new) ← newNode pools store data key allocation
    let nodes ← modify store.nodes new fun node ↦ { node with parent := NULL }
    pure ({ store with nodes := nodes }, ⟨new, tree.nodeCount + 1⟩, KERN_SUCCESS)
  else insertLoop pools data key allocation fuel store tree tree.root

/-- Let `parent` lead to `child` where it led to `current`: on the left if it did so there, and on
the right otherwise. -/
def replaceChild (nodes : NodeMemory) (parent current child : Ptr) : Option NodeMemory :=
  modify nodes parent fun node ↦
    if node.left = current then { node with left := child } else { node with right := child }

/-- The loop that looks for the leftmost node under `right_min`. -/
def rightMin (nodes : NodeMemory) : ℕ → Ptr → Ptr → Option (Ptr × Ptr)
  | 0, _, _ => none
  | fuel + 1, min, minParent => do
      let node ← load nodes min
      if node.left = NULL then pure (min, minParent) else rightMin nodes fuel node.left min

/-- `remove_binary_tree` once the node with the key is found. -/
def removeFound (fuel : ℕ) (store : Store) (tree : Tree) (address current : Ptr) :
    Option (Store × Tree × ℕ) := do
  let node ← load store.nodes current
  let fewer := { tree with nodeCount := tree.nodeCount - 1 }
  if 1 < node.data.nodeCount then
    let (lists, bucket, status) ← SinglyLinkedList.removeNodeByAddress fuel store.lists node.data
      address
    let nodes ← modify store.nodes current fun node ↦ { node with data := bucket }
    pure ({ store with nodes := nodes, lists := lists }, tree,
      if status = SinglyLinkedList.KERN_SUCCESS then KERN_SUCCESS else VALUE_NOT_FOUND)
  else if node.left = NULL ∧ node.right = NULL then
    let nodes ← replaceChild store.nodes node.parent current NULL
    let store ← nodeFree { store with nodes := nodes } current
    pure (store, fewer, KERN_SUCCESS)
  else if node.left = NULL then
    let nodes ← replaceChild store.nodes node.parent current node.right
    let nodes ← modify nodes node.right fun child ↦ { child with parent := node.parent }
    let store ← nodeFree { store with nodes := nodes } current
    pure (store, fewer, KERN_SUCCESS)
  else if node.right = NULL then
    let nodes ← replaceChild store.nodes node.parent current node.left
    let nodes ← modify nodes node.left fun child ↦ { child with parent := node.parent }
    let store ← nodeFree { store with nodes := nodes } current
    pure (store, fewer, KERN_SUCCESS)
  else
    let (min, minParent) ← rightMin store.nodes fuel node.right current
    let minRight := (← load store.nodes min).right
    let nodes ← modify store.nodes minParent fun parent ↦
      if minParent = current then { parent with right := minRight }
      else { parent with left := minRight }
    let node ← load nodes current
    let nodes ← modify nodes min fun child ↦
      { child with left := node.left, right := node.right, parent := node.parent }
    let nodes ← if node.parent = NULL then pure nodes
      else replaceChild nodes node.parent current min
    let store ← nodeFree { store with nodes := nodes } current
    pure (store, fewer, KERN_SUCCESS)

/-- The loop of `remove_binary_tree`. -/
def removeLoop (bound : ℕ) (key : ℕ) (address : Ptr) :
    ℕ → Store → Tree → Ptr → Option (Store × Tree × ℕ)
  | 0, _, _, _ => none
  | fuel + 1, store, tree, current => do
      let node ← load store.nodes current
      if key = node.key then removeFound bound store tree address current
      else if key < node.key then
        if node.left = NULL then pure (store, tree, VALUE_NOT_FOUND)
        else removeLoop bound key address fuel store tree node.left
      else
        if node.right = NULL then pure (store, tree, VALUE_NOT_FOUND)
        else removeLoop bound key address fuel store tree node.right

/-- `remove_binary_tree`; `node` is the node to remove from, or `NULL` to look for it. An entry
under the root's key is only taken out of the bucket. -/
def removeBinaryTree (fuel : ℕ) (store : Store) (tree : Tree) (key : ℕ) (address node : Ptr) :
    Option (Store × Tree × ℕ) := do
  let current := if node = NULL then tree.root else node
  if current = NULL then pure (store, tree, VALUE_NOT_FOUND)
  else
    let root ← load store.nodes tree.root
    if key = root.key then
      let bucket := (← load store.nodes current).data
      let (lists, bucket, status) ← SinglyLinkedList.removeNodeByAddress fuel store.lists bucket
        address
      if status = SinglyLinkedList.NODE_NOT_FOUND then none
      else
        let nodes ← modify store.nodes current fun node ↦ { node with data := bucket }
        pure ({ store with nodes := nodes, lists := lists }, tree, KERN_SUCCESS)
    else removeLoop fuel key address fuel store tree current

/-- `lookup_tree` at the node with the key. -/
def lookupFound (fuel : ℕ) (key remove : ℕ) (store : Store) (tree : Tree) (current : Ptr) :
    Option (Store × Tree × Ptr) := do
  let bucket := (← load store.nodes current).data
  let value := (← SinglyLinkedList.load store.lists.nodes bucket.head).data
  if remove = 0 then pure (store, tree, value)
  else
    let (store, tree, _) ← removeBinaryTree fuel store tree key value current
    pure (store, tree, value)

/-- The loop of `lookup_tree`. A node that is its own child is cut off from itself. -/
def lookupLoop (bound : ℕ) (key remove : ℕ) :
    ℕ → Store → Tree → Ptr → Option (Store × Tree × Ptr)
  | 0, _, _, _ => none
  | fuel + 1, store, tree, current => do
      let node ← load store.nodes current
      if key = node.key then lookupFound bound key remove store tree current
      else if key < node.key then
        if node.left = current then
          pure ({ store with nodes := (Function.update store.nodes current
            { node with left := NULL }) }, tree, NULL)
        else if node.left = NULL then pure (store, tree, NULL)
        else lookupLoop bound key remove fuel store tree node.left
      else
        if node.right = current then
          pure ({ store with nodes := (Function.update store.nodes current
            { node with right := NULL }) }, tree, NULL)
        else if node.right = NULL then pure (store, tree, NULL)
        else lookupLoop bound key remove fuel store tree node.right

/-- `lookup_tree`; a nonzero `remove` also removes what was found. -/
def lookupTree (fuel : ℕ) (store : Store) (tree : Tree) (key remove : ℕ) :
    Option (Store × Tree × Ptr) :=
  if tree.root = NULL then some (store, tree, NULL)
  else lookupLoop fuel key remove fuel store tree tree.root

def REMOVE_FROM_TREE : ℕ := 1

/-- `stack[++top] = address`, on the entries of the stack from the top down. A write outside the
allocated entries faults, and so does an overflow of `top`, an `int32_t`. -/
def push (capacity : ℕ) (stack : List Ptr) (address : Ptr) : Option (List Ptr) :=
  if stack.length < capacity ∧ stack.length < 2 ^ 31 then some (address :: stack) else none

/-- Push a child of the node just visited, if there is one. -/
def pushChild (capacity : ℕ) (stack : List Ptr) (child : Ptr) : Option (List Ptr) :=
  if child = NULL then some stack else push capacity stack child

/-- The loop of `for_each_node_in_tree`, with the nodes that `callback` is called with. -/
def visitLoop (nodes : NodeMemory) (capacity : ℕ) : ℕ → List Ptr → Option (List Ptr)
  | 0, _ => none
  | _ + 1, [] => some []
  | fuel + 1, current :: stack =>
      if current = NULL then visitLoop nodes capacity fuel stack
      else do
        let node := nodes current
        let stack ← pushChild capacity stack node.right
        let stack ← pushChild capacity stack node.left
        let visited ← visitLoop nodes capacity fuel stack
        pure (current :: visited)

/-- `for_each_node_in_tree`: the nodes that `callback` is called with, in this order, for a
callback that leaves the tree alone. `allocated` says whether `kzmalloc` found memory for the
stack. -/
def forEachNodeInTree (fuel : ℕ) (nodes : NodeMemory) (tree : Tree) (allocated : Bool) :
    Option (List Ptr) :=
  if tree.root = NULL then some []
  else if allocated = false then some []
  else do
    let stack ← push tree.nodeCount [] tree.root
    visitLoop nodes tree.nodeCount fuel stack

end DionysOS.DataStructures.BinaryTree
