import DionysOS.Foundation.LinkedChain
import DionysOS.Foundation.PartialMachine

/-!
# The kernel's singly linked list

The list of `singly_linked_list.c` over an explicit node memory. Addresses are natural numbers
and `NULL` is zero; a dereference of `NULL` faults. List nodes come from a static pool, whose
unused nodes are kept in the list `free_nodes`, and from `_kalloc` once the pool is empty.

The functions are called under the list's spinlock, so a call is one step here and the locks do
not appear. `node_count` counts distinct nodes of a 64-bit address space and cannot wrap, so it
is a natural number. The two bits of a node's `flags` and the one bit of a list's `flags` that
the code uses are Boolean fields.

Loops that follow `next` take fuel, and running out of it faults.
-/

namespace DionysOS.DataStructures

abbrev Ptr := ℕ

abbrev NULL : Ptr := 0

structure SinglyLinkedList where
  head : Ptr
  tail : Ptr
  nodeCount : ℕ
  /-- `LIST_FLAG_FREE_NODES`: the nodes of this list are its data. -/
  flagFreeNodes : Bool
deriving DecidableEq, Repr

namespace SinglyLinkedList

/-- `struct singly_linked_list_node`. -/
structure Node where
  data : Ptr
  next : Ptr
  /-- `STATIC_POOL_NODE`. -/
  staticPoolNode : Bool
  /-- `STATIC_POOL_FREE_NODE`. -/
  staticPoolFreeNode : Bool
deriving DecidableEq, Repr

def Node.zero : Node := ⟨NULL, NULL, false, false⟩

abbrev NodeMemory := Ptr → Node

/-- The globals of `singly_linked_list.c`, with the node memory and the addresses that `_kalloc`
has handed out for nodes and not got back. -/
structure NodeStore where
  nodes : NodeMemory
  staticPoolSetup : Bool
  freeNodes : SinglyLinkedList
  kallocLive : List Ptr

def load (nodes : NodeMemory) (address : Ptr) : Option Node :=
  if address = NULL then none else some (nodes address)

def store (nodes : NodeMemory) (address : Ptr) (node : Node) : Option NodeMemory :=
  if address = NULL then none else some (Function.update nodes address node)

def setNext (nodes : NodeMemory) (address next : Ptr) : Option NodeMemory := do
  store nodes address { ← load nodes address with next := next }

def setData (nodes : NodeMemory) (address data : Ptr) : Option NodeMemory := do
  store nodes address { ← load nodes address with data := data }

section Access

variable {nodes : NodeMemory} {addr : Ptr}

section

variable (h : addr ≠ NULL)
include h

@[simp]
theorem load_of_ne : load nodes addr = some (nodes addr) := by
  simp [load, h]

@[simp]
theorem store_of_ne (node : Node) :
    store nodes addr node = some (Function.update nodes addr node) := by
  simp [store, h]

@[simp]
theorem setNext_of_ne (next : Ptr) : setNext nodes addr next =
    some (Function.update nodes addr { nodes addr with next := next }) := by
  simp [setNext, h]

@[simp]
theorem setData_of_ne (data : Ptr) : setData nodes addr data =
    some (Function.update nodes addr { nodes addr with data := data }) := by
  simp [setData, h]

end

end Access

/-- The body of `singly_linked_list_insert_head` once `new_head` is chosen. -/
def linkHead (nodes : NodeMemory) (list : SinglyLinkedList) (newHead data : Ptr) :
    Option (NodeMemory × SinglyLinkedList) := do
  let nodes ← setData nodes newHead data
  if list.nodeCount = 0 then
    let nodes ← setNext nodes newHead NULL
    pure (nodes, { list with head := newHead, tail := NULL, nodeCount := list.nodeCount + 1 })
  else if list.nodeCount = 1 then
    let nodes ← setNext nodes newHead list.head
    let tail := (← load nodes newHead).next
    let nodes ← setNext nodes tail NULL
    pure (nodes, { list with head := newHead, tail := tail, nodeCount := list.nodeCount + 1 })
  else
    let nodes ← setNext nodes newHead list.head
    pure (nodes, { list with head := newHead, nodeCount := list.nodeCount + 1 })

/-- `singly_linked_list_remove_head` on a list with `LIST_FLAG_FREE_NODES`. -/
def removeHeadFreeNodes (nodes : NodeMemory) (list : SinglyLinkedList) :
    SinglyLinkedList × Ptr :=
  if list.nodeCount = 0 ∨ list.head = NULL then (list, NULL)
  else
    ({ list with head := (nodes list.head).next, nodeCount := list.nodeCount - 1 },
      (nodes list.head).data)

/-- `singly_linked_list_node_alloc`. When the pool is empty, `fresh` is what `_kalloc` returns;
the slab allocator returns zero-filled memory. -/
def nodeAlloc (state : NodeStore) (fresh : Ptr) : Option (NodeStore × Ptr) := do
  let (freeNodes, pooled) := removeHeadFreeNodes state.nodes state.freeNodes
  if pooled = NULL then
    let nodes ← store state.nodes fresh { Node.zero with staticPoolFreeNode := false }
    pure ({ state with nodes := nodes, freeNodes := freeNodes,
                       kallocLive := fresh :: state.kallocLive }, fresh)
  else
    let node ← load state.nodes pooled
    let nodes ← store state.nodes pooled { node with staticPoolFreeNode := false, data := NULL }
    pure ({ state with nodes := nodes, freeNodes := freeNodes }, pooled)

/-- `singly_linked_list_node_free`. -/
def nodeFree (state : NodeStore) (address : Ptr) : Option NodeStore := do
  let node ← load state.nodes address
  if node.staticPoolNode then
    let nodes ← store state.nodes address
      { node with staticPoolFreeNode := false, data := NULL, next := NULL }
    let (nodes, freeNodes) ← linkHead nodes state.freeNodes address address
    pure { state with nodes := nodes, freeNodes := freeNodes }
  else
    let nodes ← store state.nodes address Node.zero
    pure { state with nodes := nodes, kallocLive := state.kallocLive.erase address }

/-- One round of the loop that fills `free_nodes` from the static pool. -/
def addPoolNode (state : NodeStore) (address : Ptr) : Option NodeStore := do
  let node ← load state.nodes address
  let nodes ← store state.nodes address
    { node with staticPoolNode := true, staticPoolFreeNode := true }
  let (nodes, freeNodes) ← linkHead nodes state.freeNodes address address
  pure { state with nodes := nodes, freeNodes := freeNodes }

/-- `singly_linked_list_init`. The first call of all puts the nodes of
`singly_linked_list_node_static_pool`, here `pool`, into `free_nodes`. -/
def init (pool : List Ptr) (state : NodeStore) (flagFreeNodes : Bool) :
    Option (NodeStore × SinglyLinkedList) := do
  let list : SinglyLinkedList := ⟨NULL, NULL, 0, flagFreeNodes⟩
  if state.staticPoolSetup then
    pure (state, list)
  else
    let state ← pool.foldlM addPoolNode
      { state with staticPoolSetup := true, freeNodes := ⟨NULL, NULL, 0, true⟩ }
    pure (state, list)

/-- The node for `data`: the data itself in a list of free nodes, a new node otherwise. -/
def newNode (state : NodeStore) (list : SinglyLinkedList) (data fresh : Ptr) :
    Option (NodeStore × Ptr) :=
  if list.flagFreeNodes then some (state, data) else nodeAlloc state fresh

def insertTail (state : NodeStore) (list : SinglyLinkedList) (data fresh : Ptr) :
    Option (NodeStore × SinglyLinkedList) := do
  let (state, node) ← newNode state list data fresh
  let nodes ← setData state.nodes node data
  let nodes ← setNext nodes node NULL
  if list.tail = NULL ∧ list.nodeCount = 1 then
    let nodes ← setNext nodes list.head node
    pure ({ state with nodes := nodes },
      { list with tail := node, nodeCount := list.nodeCount + 1 })
  else
    let nodes ← setNext nodes list.tail node
    pure ({ state with nodes := nodes },
      { list with tail := node, nodeCount := list.nodeCount + 1 })

def insertHead (state : NodeStore) (list : SinglyLinkedList) (data fresh : Ptr) :
    Option (NodeStore × SinglyLinkedList) := do
  let (state, node) ← newNode state list data fresh
  let (nodes, list) ← linkHead state.nodes list node data
  pure ({ state with nodes := nodes }, list)

/-- The loop of `singly_linked_list_remove_tail`: walk to the node before `list->tail`, make it
the new tail and cut it off. -/
def retargetTail : ℕ → NodeMemory → Ptr → Ptr → Option (NodeMemory × Ptr)
  | 0, _, _, _ => none
  | fuel + 1, nodes, listTail, node =>
      if node = NULL then some (nodes, listTail)
      else if (nodes node).next = listTail then
        retargetTail fuel (Function.update nodes node { nodes node with next := NULL }) node NULL
      else retargetTail fuel nodes listTail (nodes node).next

def removeTail (fuel : ℕ) (state : NodeStore) (list : SinglyLinkedList) :
    Option (NodeStore × SinglyLinkedList × Ptr) := do
  if list.nodeCount = 0 then
    pure (state, list, NULL)
  else if list.nodeCount = 1 then
    let returnValue := (← load state.nodes list.head).data
    let nodes ← setNext state.nodes list.head NULL
    let state ← nodeFree { state with nodes := nodes } list.head
    pure (state, { list with head := NULL, tail := NULL, nodeCount := list.nodeCount - 1 },
      returnValue)
  else
    -- `return_value` stays unset when `tail` is NULL, but then `tail->next` faults below.
    let tail := list.tail
    let (nodes, newTail) ← retargetTail fuel state.nodes list.tail list.head
    let returnValue := (← load state.nodes tail).data
    let nodes ← setNext nodes tail NULL
    let state ← nodeFree { state with nodes := nodes } tail
    pure (state, { list with tail := newTail, nodeCount := list.nodeCount - 1 }, returnValue)

def removeHead (state : NodeStore) (list : SinglyLinkedList) :
    Option (NodeStore × SinglyLinkedList × Ptr) := do
  if list.nodeCount = 0 ∨ list.head = NULL then
    pure (state, list, NULL)
  else if list.flagFreeNodes then
    let (list, returnValue) := removeHeadFreeNodes state.nodes list
    pure (state, list, returnValue)
  else
    let returnValue := (state.nodes list.head).data
    if list.nodeCount = 1 then
      let state ← nodeFree state list.head
      pure (state, { list with head := NULL, tail := NULL, nodeCount := list.nodeCount - 1 },
        returnValue)
    else if list.nodeCount = 2 then
      let node := list.head
      let nodes ← setNext state.nodes list.tail NULL
      let nodes ← setNext nodes node NULL
      let state ← nodeFree { state with nodes := nodes } node
      pure (state,
        { list with head := list.tail, tail := NULL, nodeCount := list.nodeCount - 1 },
        returnValue)
    else
      let newHead := (state.nodes list.head).next
      let state ← nodeFree state list.head
      pure (state, { list with head := newHead, nodeCount := list.nodeCount - 1 }, returnValue)

def KERN_SUCCESS : ℕ := 0

def NODE_NOT_FOUND : ℕ := 1

/-- The loop of `singly_linked_list_remove_node_by_address`, from the second node on. -/
def removeAfter (data : Ptr) :
    ℕ → NodeStore → SinglyLinkedList → Ptr → Ptr → Option (NodeStore × SinglyLinkedList × ℕ)
  | 0, _, _, _, _ => none
  | fuel + 1, state, list, prev, node =>
      if node = NULL then some (state, list, NODE_NOT_FOUND)
      else if (state.nodes node).data = data then do
        let nodes ← setNext state.nodes prev (state.nodes node).next
        let state ← nodeFree { state with nodes := nodes } node
        pure (state, { list with nodeCount := list.nodeCount - 1 }, KERN_SUCCESS)
      else removeAfter data fuel state list (state.nodes prev).next (state.nodes node).next

def removeNodeByAddress (fuel : ℕ) (state : NodeStore) (list : SinglyLinkedList) (data : Ptr) :
    Option (NodeStore × SinglyLinkedList × ℕ) := do
  let node ← load state.nodes list.head
  if node.data = data then
    let (state, list, _) ← removeHead state list
    pure (state, list, KERN_SUCCESS)
  else
    removeAfter data fuel state list list.head node.next

end SinglyLinkedList

end DionysOS.DataStructures
