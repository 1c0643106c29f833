import DionysOS.DataStructures.SinglyLinkedList

/-!
# The kernel's queue

The queue of `queue.c` over an explicit node memory, with its three implemented modes. A
dereference of `NULL`, a `panic`, a `kfree` of memory that is not allocated and a walk that never
ends are all `none`. Every call holds the queue's spinlock from its first to its last access, so
a call is one step; the lock, the queue's name and the locals that are never read are left out.

`queue_node_init` overwrites every field of a new node, so nothing is assumed about what `kmalloc`
returns, and no call looks at a node after its `kfree`.
-/

namespace DionysOS.DataStructures

/-- The `QUEUE_MODE_*` constants. -/
inductive QueueMode where
  | fifo
  | lifo
  | priority
  | circular
  | doubleEnded
deriving DecidableEq, Repr

structure Queue where
  head : Ptr
  tail : Ptr
  queueMode : QueueMode
  nodeCount : ℕ
deriving DecidableEq, Repr

namespace Queue

/-- `struct queue_node`. -/
structure Node where
  data : Ptr
  next : Ptr
  prev : Ptr
  priority : ℕ
deriving DecidableEq, Repr

abbrev NodeMemory := Ptr → Node

/-- The node memory, with the nodes that `kmalloc` has handed out and `kfree` has not got back, and
the arguments of the calls of `kfree` in the order in which they were made. -/
structure Heap where
  nodes : NodeMemory
  live : Finset Ptr
  freed : List Ptr

def load (nodes : NodeMemory) (address : Ptr) : Option Node :=
  if address = NULL then none else some (nodes address)

def modify (heap : Heap) (address : Ptr) (change : Node → Node) : Option Heap :=
  if address = NULL then none
  else some { heap with nodes := Function.update heap.nodes address (change (heap.nodes address)) }

def setNext (heap : Heap) (address next : Ptr) : Option Heap :=
  modify heap address fun node ↦ { node with next := next }

def setPrev (heap : Heap) (address prev : Ptr) : Option Heap :=
  modify heap address fun node ↦ { node with prev := prev }

section Access

variable {heap : Heap} {addr : Ptr}

@[simp]
theorem load_of_ne (h : addr ≠ NULL) (nodes : NodeMemory) :
    load nodes addr = some (nodes addr) := by
  simp [load, h]

@[simp]
theorem setNext_of_ne (h : addr ≠ NULL) (next : Ptr) : setNext heap addr next =
    some { heap with
      nodes := Function.update heap.nodes addr { heap.nodes addr with next := next } } := by
  simp [setNext, modify, h]

@[simp]
theorem setPrev_of_ne (h : addr ≠ NULL) (prev : Ptr) : setPrev heap addr prev =
    some { heap with
      nodes := Function.update heap.nodes addr { heap.nodes addr with prev := prev } } := by
  simp [setPrev, modify, h]

end Access

/-- `kmalloc` of one node, returning `newNode`, with whatever that memory holds. -/
def kmalloc (heap : Heap) (newNode : Ptr) : Heap := { heap with live := insert newNode heap.live }

def kfree (heap : Heap) (address : Ptr) : Option Heap :=
  if address ∈ heap.live then
    some { heap with live := heap.live.erase address, freed := heap.freed ++ [address] }
  else none

/-- `node_count++` on a `uint32_t`. -/
def incremented (count : ℕ) : ℕ := (count + 1) % 2 ^ 32

/-- `node_count--` on a `uint32_t`. -/
def decremented (count : ℕ) : ℕ := (count + (2 ^ 32 - 1)) % 2 ^ 32

/-- `queue_init`, which leaves `node_count` alone. -/
def queueInit (queue : Queue) (queueMode : QueueMode) : Queue :=
  { queue with head := NULL, tail := NULL, queueMode := queueMode }

/-- A zero-initialised `struct queue`. -/
def zeroed : Queue := ⟨NULL, NULL, .fifo, 0⟩

def queueNodeInit (heap : Heap) (node data : Ptr) (priority : ℕ) : Option Heap :=
  modify heap node fun _ ↦ ⟨data, NULL, NULL, priority⟩

def enqueueFirst (queue : Queue) (newNode : Ptr) : Queue :=
  { queue with head := newNode, tail := newNode, nodeCount := incremented queue.nodeCount }

/-- `last->next = new_node; new_node->prev = last; tail = new_node; node_count++`. -/
def appendAfter (heap : Heap) (queue : Queue) (last newNode : Ptr) : Option (Heap × Queue) := do
  let heap ← setNext heap last newNode
  let heap ← setPrev heap newNode last
  pure (heap, { queue with tail := newNode, nodeCount := incremented queue.nodeCount })

def enqueueFifo (heap : Heap) (queue : Queue) (newNode : Ptr) : Option (Heap × Queue) := do
  let node ← load heap.nodes newNode
  if node.data = NULL then none
  else if queue.nodeCount = 0 then some (heap, enqueueFirst queue newNode)
  else if queue.nodeCount = 1 then appendAfter heap queue queue.head newNode
  else appendAfter heap queue queue.tail newNode

/-- `enqueue_lifo`. The new head's `next` stays `NULL`. -/
def enqueueLifo (heap : Heap) (queue : Queue) (newNode : Ptr) : Option (Heap × Queue) := do
  let node ← load heap.nodes newNode
  if node.data = NULL then none
  else if queue.nodeCount = 0 then some (heap, enqueueFirst queue newNode)
  else
    let heap ← setPrev heap queue.head newNode
    some (heap, { queue with head := newNode, nodeCount := incremented queue.nodeCount })

/-- The walk at the end of `enqueue_priority`, from `pointer`. The node before `pointer` keeps its
`next`. A walk longer than `fuel` has left the allocated nodes or goes round in a circle. -/
def priorityWalk (heap : Heap) (queue : Queue) (newNode : Ptr) (priority : ℕ) :
    ℕ → Ptr → Option (Heap × Queue)
  | fuel, pointer =>
      if pointer = NULL then some (heap, queue)
      else if (heap.nodes pointer).priority < priority then do
        let heap ← setNext heap newNode pointer
        let heap ← setPrev heap newNode (heap.nodes pointer).prev
        let heap ← setPrev heap pointer newNode
        some (heap, { queue with nodeCount := incremented queue.nodeCount })
      else
        match fuel with
        | 0 => none
        | fuel + 1 => priorityWalk heap queue newNode priority fuel (heap.nodes pointer).next

/-- The second element of a priority queue goes to one of the two ends. -/
def enqueueSecond (heap : Heap) (queue : Queue) (newNode : Ptr) (priority : ℕ) :
    Option (Heap × Queue) := do
  let head ← load heap.nodes queue.head
  if head.priority < priority then
    let heap ← setPrev heap queue.head newNode
    let heap ← setNext heap newNode queue.head
    some (heap, { queue with head := newNode, nodeCount := incremented queue.nodeCount })
  else appendAfter heap queue queue.head newNode

def insertBehindHead (heap : Heap) (queue : Queue) (newNode : Ptr) : Option (Heap × Queue) := do
  let head ← load heap.nodes queue.head
  let heap ← setNext heap newNode head.next
  let heap ← setNext heap queue.head newNode
  let heap ← setPrev heap newNode queue.head
  some (heap, { queue with nodeCount := incremented queue.nodeCount })

def enqueuePriority (heap : Heap) (queue : Queue) (newNode : Ptr) : Option (Heap × Queue) := do
  let node ← load heap.nodes newNode
  if node.data = NULL then none
  else if queue.nodeCount = 0 then some (heap, enqueueFirst queue newNode)
  else if queue.nodeCount = 1 then enqueueSecond heap queue newNode node.priority
  else if node.priority ≤ (← load heap.nodes queue.tail).priority then
    appendAfter heap queue queue.tail newNode
  else if (← load heap.nodes queue.head).priority ≤ node.priority then
    insertBehindHead heap queue newNode
  else priorityWalk heap queue newNode node.priority heap.live.card queue.head

/-- `enqueue`; `newNode` is what `kmalloc` returns. The modes without an implementation drop the
new node. -/
def enqueue (heap : Heap) (queue : Queue) (data : Ptr) (priority : ℕ) (newNode : Ptr) :
    Option (Heap × Queue) := do
  let heap ← queueNodeInit (kmalloc heap newNode) newNode data priority
  match queue.queueMode with
  | .fifo => enqueueFifo heap queue newNode
  | .lifo => enqueueLifo heap queue newNode
  | .priority => enqueuePriority heap queue newNode
  | .circular => some (heap, queue)
  | .doubleEnded => some (heap, queue)

/-- The body that `dequeue_fifo` and `dequeue_priority` share. It leaves `tail` alone unless one
node is left, so an emptied queue keeps a `tail` that points to freed memory. -/
def dequeueHead (heap : Heap) (queue : Queue) : Option (Heap × Queue) :=
  if queue.head = NULL then some (heap, queue)
  else do
    let pointer ← load heap.nodes queue.head
    if pointer.next = NULL then
      let heap ← kfree heap queue.head
      some (heap, { queue with head := NULL, nodeCount := decremented queue.nodeCount })
    else
      let heap ← setPrev heap pointer.next NULL
      let heap ← kfree heap queue.head
      let count := decremented queue.nodeCount
      some (heap, { queue with
        head := pointer.next
        tail := if count = 1 then pointer.next else queue.tail
        nodeCount := count })

def dequeueFifo (heap : Heap) (queue : Queue) : Option (Heap × Queue) := dequeueHead heap queue

def dequeuePriority (heap : Heap) (queue : Queue) : Option (Heap × Queue) := dequeueHead heap queue

def dequeueLifo (heap : Heap) (queue : Queue) : Option (Heap × Queue) :=
  if queue.head = NULL then some (heap, queue)
  else if queue.nodeCount = 1 then do
    let heap ← kfree heap queue.head
    some (heap, { queue with
      head := NULL, tail := NULL, nodeCount := decremented queue.nodeCount })
  else do
    let pointer ← load heap.nodes queue.head
    let heap ← setPrev heap pointer.next NULL
    let heap ← kfree heap queue.head
    some (heap, { queue with
      head := pointer.next, nodeCount := decremented queue.nodeCount })

def dequeue (heap : Heap) (queue : Queue) : Option (Heap × Queue) :=
  match queue.queueMode with
  | .fifo => dequeueFifo heap queue
  | .lifo => dequeueLifo heap queue
  | .priority => dequeuePriority heap queue
  | .circular => some (heap, queue)
  | .doubleEnded => some (heap, queue)

/-- A call on the queue, with the address that `kmalloc` returns in it. -/
inductive Operation where
  | enqueue (data : Ptr) (priority : ℕ) (newNode : Ptr)
  | dequeue
deriving DecidableEq, Repr

def step (state : Heap × Queue) : Operation → Option ((Heap × Queue) × Unit)
  | .enqueue data priority newNode =>
      (enqueue state.1 state.2 data priority newNode).map (·, ())
  | .dequeue => (dequeue state.1 state.2).map (·, ())

end Queue

end DionysOS.DataStructures
