import DionysOS.DataStructures.SinglyLinkedList

/-!
# The kernel's doubly linked list

The list of `doubly_linked_list.c` over an explicit node memory, with the conventions of the singly
linked list: addresses are natural numbers, a dereference of `NULL` faults, and a call under the
list's spinlock is one step. Nodes come from `kmalloc`, which returns zero-filled memory for
requests below a page.

The list never looks at a node it has released, so what `kfree` leaves behind in one does not
matter. `doubly_linked_list_remove_node_by_address` hands its node back to the caller instead of
releasing it.
-/

namespace DionysOS.DataStructures

structure DoublyLinkedList where
  head : Ptr
  tail : Ptr
  nodeCount : ℕ
deriving DecidableEq, Repr

namespace DoublyLinkedList

/-- `struct doubly_linked_list_node`. -/
structure Node where
  data : Ptr
  next : Ptr
  prev : Ptr
deriving DecidableEq, Repr

def Node.zero : Node := ⟨NULL, NULL, NULL⟩

abbrev NodeMemory := Ptr → Node

/-- The node memory, with the addresses that `kmalloc` has handed out for nodes and that neither
`kfree` nor the caller of a removal by address has got back. -/
structure Heap where
  nodes : NodeMemory
  live : List Ptr

def modify (nodes : NodeMemory) (address : Ptr) (change : Node → Node) : Option NodeMemory :=
  if address = NULL then none else some (Function.update nodes address (change (nodes address)))

def setData (nodes : NodeMemory) (address data : Ptr) : Option NodeMemory :=
  modify nodes address fun node ↦ { node with data := data }

def setNext (nodes : NodeMemory) (address next : Ptr) : Option NodeMemory :=
  modify nodes address fun node ↦ { node with next := next }

def setPrev (nodes : NodeMemory) (address prev : Ptr) : Option NodeMemory :=
  modify nodes address fun node ↦ { node with prev := prev }

def load (nodes : NodeMemory) (address : Ptr) : Option Node :=
  if address = NULL then none else some (nodes address)

section Access

variable {nodes : NodeMemory} {addr : Ptr}

section

variable (h : addr ≠ NULL)
include h

@[simp]
theorem load_of_ne : load nodes addr = some (nodes addr) := by
  simp [load, h]

@[simp]
theorem setData_of_ne (data : Ptr) : setData nodes addr data =
    some (Function.update nodes addr { nodes addr with data := data }) := by
  simp [setData, modify, h]

@[simp]
theorem setNext_of_ne (next : Ptr) : setNext nodes addr next =
    some (Function.update nodes addr { nodes addr with next := next }) := by
  simp [setNext, modify, h]

@[simp]
theorem setPrev_of_ne (prev : Ptr) : setPrev nodes addr prev =
    some (Function.update nodes addr { nodes addr with prev := prev }) := by
  simp [setPrev, modify, h]

end

end Access

/-- `kmalloc` and `kzmalloc` of one node, returning `fresh`. -/
def kmalloc (heap : Heap) (fresh : Ptr) : Heap :=
  ⟨Function.update heap.nodes fresh Node.zero, fresh :: heap.live⟩

def kfree (heap : Heap) (address : Ptr) : Heap := { heap with live := heap.live.erase address }

/-- `doubly_linked_list_init`. -/
def init : DoublyLinkedList := ⟨NULL, NULL, 0⟩

/-- `doubly_linked_list_insert_tail`; `newNode` is what `kmalloc` returns. -/
def insertTail (heap : Heap) (list : DoublyLinkedList) (data newNode : Ptr) :
    Option (Heap × DoublyLinkedList) := do
  let heap := kmalloc heap newNode
  let nodes ← setData heap.nodes newNode data
  if list.nodeCount = 0 then
    pure ({ heap with nodes := nodes }, ⟨newNode, NULL, list.nodeCount + 1⟩)
  else if list.nodeCount = 1 then
    let nodes ← setNext nodes list.head newNode
    let nodes ← setPrev nodes newNode list.head
    pure ({ heap with nodes := nodes }, ⟨list.head, newNode, list.nodeCount + 1⟩)
  else
    let nodes ← setNext nodes list.tail newNode
    let nodes ← setPrev nodes newNode list.tail
    pure ({ heap with nodes := nodes }, ⟨list.head, newNode, list.nodeCount + 1⟩)

/-- `doubly_linked_list_insert_head`; `newHead` is what `kzmalloc` returns. -/
def insertHead (heap : Heap) (list : DoublyLinkedList) (data newHead : Ptr) :
    Option (Heap × DoublyLinkedList) := do
  let heap := kmalloc heap newHead
  let nodes ← setData heap.nodes newHead data
  if list.nodeCount = 0 then
    let nodes ← setNext nodes newHead NULL
    let nodes ← setPrev nodes newHead NULL
    pure ({ heap with nodes := nodes }, ⟨newHead, NULL, list.nodeCount + 1⟩)
  else
    let nodes ← setNext nodes newHead list.head
    let nodes ← setPrev nodes list.head newHead
    let nodes ← setPrev nodes newHead NULL
    pure ({ heap with nodes := nodes }, ⟨newHead, list.tail, list.nodeCount + 1⟩)

def removeTail (heap : Heap) (list : DoublyLinkedList) : Option (Heap × DoublyLinkedList) := do
  if list.nodeCount = 0 then pure (heap, list)
  else if list.nodeCount = 1 then
    pure (kfree heap list.head, ⟨NULL, NULL, list.nodeCount - 1⟩)
  else
    let tail := (← load heap.nodes list.tail).prev
    let heap := kfree heap (← load heap.nodes tail).next
    let nodes ← setNext heap.nodes tail NULL
    pure ({ heap with nodes := nodes }, ⟨list.head, tail, list.nodeCount - 1⟩)

def removeHead (heap : Heap) (list : DoublyLinkedList) : Option (Heap × DoublyLinkedList) := do
  if list.nodeCount = 0 then pure (heap, list)
  else if list.nodeCount = 1 then
    pure (kfree heap list.head, ⟨NULL, NULL, list.nodeCount - 1⟩)
  else
    let head := (← load heap.nodes list.head).next
    let heap := kfree heap (← load heap.nodes head).prev
    let nodes ← setPrev heap.nodes head NULL
    pure ({ heap with nodes := nodes }, ⟨head, list.tail, list.nodeCount - 1⟩)

/-- `doubly_linked_list_remove_node_by_address`. The node now belongs to the caller. -/
def removeNodeByAddress (heap : Heap) (list : DoublyLinkedList) (address : Ptr) :
    Option (Heap × DoublyLinkedList) := do
  let node ← load heap.nodes address
  let live := heap.live.erase address
  if node.next = NULL ∧ node.prev = NULL then
    pure (⟨heap.nodes, live⟩, ⟨NULL, NULL, list.nodeCount - 1⟩)
  else if node.next = NULL then
    let nodes ← setNext heap.nodes node.prev NULL
    pure (⟨nodes, live⟩, ⟨list.head, node.prev, list.nodeCount - 1⟩)
  else if node.prev = NULL then
    let nodes ← setPrev heap.nodes node.next NULL
    pure (⟨nodes, live⟩, ⟨node.next, list.tail, list.nodeCount - 1⟩)
  else
    let nodes ← setNext heap.nodes node.prev node.next
    let node ← load nodes address
    let nodes ← setPrev nodes node.next node.prev
    pure (⟨nodes, live⟩, ⟨list.head, list.tail, list.nodeCount - 1⟩)

end DoublyLinkedList

end DionysOS.DataStructures
