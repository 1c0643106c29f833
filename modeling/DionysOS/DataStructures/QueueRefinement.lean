import DionysOS.DataStructures.Queue

/-!
# The FIFO mode refines a functional queue

The abstract state is the sequence of waiting entries, oldest first, together with the nodes that
have been released so far. `Represents` ties the header to a doubly linked chain of allocated
nodes. It says nothing about `tail` of an empty queue: `dequeue_fifo` leaves it pointing to the
node it has just freed, and `enqueue_fifo` goes by `node_count` and repairs it.
-/

namespace DionysOS.DataStructures.Queue

open Foundation LinkedChain PartialMachine List Function Node

def nextOf (nodes : NodeMemory) : Ptr → Ptr := fun address ↦ (nodes address).next

def prevOf (nodes : NodeMemory) : Ptr → Ptr := fun address ↦ (nodes address).prev

/-- The header `queue` and the nodes at `cells` form a FIFO queue. -/
structure Represents (heap : Heap) (queue : Queue) (cells : List Ptr) : Prop where
  mode : queue.queueMode = .fifo
  /-- Walking `next` from `head` visits `cells` and ends at `NULL`; `prev` walks back. -/
  chain : ∃ last, DoubleSegment (nextOf heap.nodes) (prevOf heap.nodes) NULL queue.head cells
    last NULL
  tail : ∀ last ∈ cells.getLast?, queue.tail = last
  count : queue.nodeCount = cells.length
  nonnull : NULL ∉ cells
  live : ∀ cell ∈ cells, cell ∈ heap.live

/-- The waiting entries: the nodes with the data stored in them. -/
def entries (nodes : NodeMemory) (cells : List Ptr) : List (Ptr × Ptr) :=
  cells.map fun cell ↦ (cell, (nodes cell).data)

/-- The abstract queue: what is waiting, and what has been released. -/
structure Waiting where
  waiting : List (Ptr × Ptr)
  released : List Ptr

def Waiting.step (abstract : Waiting) : Operation → Waiting × Unit
  | .enqueue data _ newNode =>
      ({ abstract with waiting := abstract.waiting ++ [(newNode, data)] }, ())
  | .dequeue =>
      match abstract.waiting with
      | [] => (abstract, ())
      | (node, _) :: waiting => (⟨waiting, abstract.released ++ [node]⟩, ())

/-- The queue in memory is the abstract queue. -/
def Refines (state : Heap × Queue) (abstract : Waiting) : Prop :=
  ∃ cells, Represents state.1 state.2 cells ∧
    entries state.1.nodes cells = abstract.waiting ∧ state.1.freed = abstract.released

/-- What the environment promises about a call: the caller enqueues data, `kmalloc` returns memory
that is not in use, and the queue stays below `2 ^ 32` elements. -/
def Promised (state : Heap × Queue) : Operation → Prop
  | .enqueue data _ newNode =>
      data ≠ NULL ∧ newNode ≠ NULL ∧ newNode ∉ state.1.live ∧ state.2.nodeCount + 1 < 2 ^ 32
  | .dequeue => True

instance (state : Heap × Queue) (operation : Operation) :
    Decidable (Promised state operation) := by
  cases operation <;> unfold Promised <;> infer_instance

variable {heap : Heap} {queue : Queue} {nodes nodes' : NodeMemory} {cells front back : List Ptr}
  {cell node newNode : Ptr}

theorem Represents.nodup (hrep : Represents heap queue cells) : cells.Nodup := by
  obtain ⟨last, hchain⟩ := hrep.chain
  exact hchain.segment.nodup hrep.nonnull

theorem entries_congr (hagree : ∀ cell ∈ cells, (nodes' cell).data = (nodes cell).data) :
    entries nodes' cells = entries nodes cells :=
  map_congr_left fun cell hcell ↦ by rw [hagree cell hcell]

theorem represents_init (heap : Heap) : Represents heap (queueInit zeroed .fifo) [] :=
  ⟨rfl, ⟨NULL, rfl, rfl⟩, by simp, rfl, by simp, by simp⟩

theorem incremented_eq {count : ℕ} (hcount : count + 1 < 2 ^ 32) :
    incremented count = count + 1 :=
  Nat.mod_eq_of_lt hcount

theorem decremented_succ {count : ℕ} (hcount : count + 1 < 2 ^ 32) :
    decremented (count + 1) = count := by
  simp only [decremented]
  omega

/-- The memory after a new node has been written behind `last`. -/
def appended (nodes : NodeMemory) (last newNode data : Ptr) (priority : ℕ) : NodeMemory :=
  Function.update (Function.update nodes newNode ⟨data, NULL, last, priority⟩) last
    { nodes last with next := newNode }

theorem enqueue_append (hrep : Represents heap queue (front ++ [cell]))
    {data : Ptr} (hdata : data ≠ NULL) (hnew : newNode ≠ NULL) (hnotLive : newNode ∉ heap.live)
    (priority : ℕ) : enqueue heap queue data priority newNode =
      some (⟨appended heap.nodes cell newNode data priority, insert newNode heap.live, heap.freed⟩,
        { queue with tail := newNode, nodeCount := incremented queue.nodeCount }) := by
  have hcell : cell ≠ NULL := fun h ↦ hrep.nonnull (by simp [h])
  have hdiffer : cell ≠ newNode := by
    rintro rfl
    exact hnotLive (hrep.live cell (by simp))
  have hcount := hrep.count
  have hlast : (if queue.nodeCount = 1 then queue.head else queue.tail) = cell := by
    split_ifs with hone
    · obtain ⟨last, hchain⟩ := hrep.chain
      obtain rfl : front = [] := by simpa [hone] using hcount
      exact hchain.1
    · exact hrep.tail cell (by simp)
  have hpos : queue.nodeCount ≠ 0 := by simp [hcount]
  have happend : enqueueFifo ⟨update heap.nodes newNode ⟨data, NULL, NULL, priority⟩,
      insert newNode heap.live, heap.freed⟩ queue newNode =
        appendAfter ⟨update heap.nodes newNode ⟨data, NULL, NULL, priority⟩,
          insert newNode heap.live, heap.freed⟩ queue cell newNode := by
    rw [← hlast]
    split_ifs with hone <;> simp [enqueueFifo, hnew, hdata, hpos, hone]
  simp [enqueue, queueNodeInit, modify, kmalloc, hnew, hrep.mode, happend, appendAfter,
    hcell, hdiffer, hdiffer.symm, appended, update_comm hdiffer]

theorem enqueue_spec (hrep : Represents heap queue cells) {data : Ptr} {priority : ℕ}
    (hprom : Promised (heap, queue) (.enqueue data priority newNode)) :
    ∃ after queue', enqueue heap queue data priority newNode = some (after, queue') ∧
      Represents after queue' (cells ++ [newNode]) ∧
      entries after.nodes (cells ++ [newNode]) = entries heap.nodes cells ++ [(newNode, data)] ∧
      after.freed = heap.freed := by
  obtain ⟨hdata, hnew, hnotLive, hbound⟩ := hprom
  have hfresh : newNode ∉ cells := fun h ↦ hnotLive (hrep.live newNode h)
  have hcount := hrep.count
  rcases eq_nil_or_concat cells with rfl | ⟨front, cell, rfl⟩
  · -- The stale `tail` of an emptied queue is overwritten.
    refine ⟨⟨update heap.nodes newNode ⟨data, NULL, NULL, priority⟩,
      insert newNode heap.live, heap.freed⟩, enqueueFirst queue newNode, ?_, ?_, ?_, rfl⟩
    · simp only [length_nil] at hcount
      simp [enqueue, queueNodeInit, modify, kmalloc, hnew, hrep.mode, enqueueFifo, hdata,
        hcount]
    · refine ⟨hrep.mode, ⟨newNode, ?_⟩, ?_, ?_, ?_, ?_⟩
      · exact ⟨rfl, by simp [prevOf], rfl, by simp [nextOf]⟩
      · simp [enqueueFirst]
      · simpa [enqueueFirst, hcount] using incremented_eq hbound
      · simpa using hnew.symm
      · simp
    · simp [entries]
  · rw [concat_eq_append] at *
    have hnodup := nodup_append.mp hrep.nodup
    have hcellNew : cell ≠ newNode := fun h ↦ hfresh (by simp [h])
    have hfront : ∀ c ∈ front, c ≠ cell ∧ c ≠ newNode := fun c hc ↦
      ⟨hnodup.2.2 c hc cell (by simp), fun h ↦ hfresh (by simp [← h, hc])⟩
    obtain ⟨last, hchain⟩ := hrep.chain
    refine ⟨_, _, enqueue_append hrep hdata hnew hnotLive priority,
      ⟨hrep.mode, ⟨newNode, ?_⟩, ?_, ?_, ?_, ?_⟩, ?_, rfl⟩
    · refine doubleSegment_append.mpr ⟨cell, newNode, Linked.relink_last next prev hchain
        (fun c hc ↦ ?_) ?_ ?_, rfl, ?_, rfl, ?_⟩
      · simp [appended, hfront c hc]
      · simp [appended]
      · simp [appended]
      · simp [prevOf, appended, hcellNew.symm]
      · simp [nextOf, appended, hcellNew.symm]
    · simp
    · simpa [hcount] using incremented_eq hbound
    · simpa [hnew.symm] using hrep.nonnull
    · intro c hc
      rcases mem_append.mp hc with hc | hc
      · exact Finset.mem_insert_of_mem (hrep.live c hc)
      · obtain rfl : c = newNode := by simpa using hc
        exact Finset.mem_insert_self ..
    · have hkept : entries (appended heap.nodes cell newNode data priority) (front ++ [cell]) =
          entries heap.nodes (front ++ [cell]) := by
        refine entries_congr fun c hc ↦ ?_
        rcases mem_append.mp hc with hc | hc
        · simp [appended, hfront c hc]
        · obtain rfl : c = cell := by simpa using hc
          simp [appended]
      rw [← hkept]
      simp [entries, appended, hcellNew.symm]

theorem dequeue_nil (hrep : Represents heap queue []) :
    dequeue heap queue = some (heap, queue) := by
  obtain ⟨last, -, hhead⟩ := hrep.chain
  simp [dequeue, hrep.mode, dequeueFifo, dequeueHead, hhead]

theorem dequeue_cons (hrep : Represents heap queue (node :: back))
    (hbound : queue.nodeCount < 2 ^ 32) :
    ∃ after queue', dequeue heap queue = some (after, queue') ∧
      Represents after queue' back ∧ entries after.nodes back = entries heap.nodes back ∧
      after.freed = heap.freed ++ [node] ∧ queue'.nodeCount < 2 ^ 32 := by
  have hnonnull := hrep.nonnull
  have hnodup := nodup_cons.mp hrep.nodup
  have hcount := hrep.count
  have hdecremented : decremented queue.nodeCount = back.length := by
    rw [hcount] at hbound ⊢
    exact decremented_succ hbound
  obtain ⟨last, hchain⟩ := hrep.chain
  obtain rfl : queue.head = node := hchain.1
  have hhead : queue.head ≠ NULL := fun h ↦ hnonnull (by simp [h])
  have hlive : queue.head ∈ heap.live := hrep.live _ mem_cons_self
  have hstay : ∀ c ∈ back, c ∈ heap.live.erase queue.head := fun c hc ↦
    Finset.mem_erase.mpr ⟨fun h ↦ hnodup.1 (h ▸ hc), hrep.live c (mem_cons_of_mem _ hc)⟩
  cases back with
  | nil =>
    have hnext : (heap.nodes queue.head).next = NULL := hchain.2.2.2
    refine ⟨⟨heap.nodes, heap.live.erase queue.head, heap.freed ++ [queue.head]⟩,
      ⟨NULL, queue.tail, queue.queueMode, 0⟩, ?_, ?_, rfl, rfl, by simp⟩
    · simp [dequeue, hrep.mode, dequeueFifo, dequeueHead, hhead, hnext, kfree, hlive,
        hdecremented]
    · exact ⟨hrep.mode, ⟨NULL, rfl, rfl⟩, by simp, rfl, by simp, by simp⟩
  | cons cell rest =>
    have hcell : cell ≠ NULL := fun h ↦ hnonnull (by simp [h])
    have hnext : (heap.nodes queue.head).next = cell := hchain.2.2.1
    have hcellRest : cell ∉ rest := (nodup_cons.mp hnodup.2).1
    refine ⟨⟨update heap.nodes cell { heap.nodes cell with prev := NULL },
        heap.live.erase queue.head, heap.freed ++ [queue.head]⟩,
      ⟨cell, if rest.length + 1 = 1 then cell else queue.tail, queue.queueMode,
        rest.length + 1⟩, ?_, ?_, ?_, rfl, ?_⟩
    · simp only [length_cons] at hdecremented
      simp [dequeue, hrep.mode, dequeueFifo, dequeueHead, hhead, hnext, kfree, hlive,
        hdecremented, hcell]
    · refine ⟨hrep.mode, ⟨last, ?_⟩, ?_, rfl, ?_, hstay⟩
      · exact Linked.relink_first next prev hchain.2.2 (fun c hc ↦
          update_of_ne (ne_of_mem_of_not_mem hc hcellRest) ..) (by simp) (by simp)
      · -- One node left: `tail` is set to it.  More: the last node is still the last.
        intro last hlast
        cases rest with
        | nil => simpa using hlast
        | cons second rest =>
          have hkept := hrep.tail last (by simpa using hlast)
          simpa using hkept
      · exact fun h ↦ hnonnull (mem_cons_of_mem _ h)
    · refine entries_congr fun c _ ↦ ?_
      by_cases h : c = cell <;> simp [h]
    · simp only [length_cons] at hcount ⊢
      omega

/-- The refinement, with the bound that every promised call keeps. -/
def Related (state : Heap × Queue) (abstract : Waiting) : Prop :=
  Refines state abstract ∧ state.2.nodeCount < 2 ^ 32

theorem step_related (state : Heap × Queue) (abstract : Waiting) (op : Operation)
    (hrelated : Related state abstract) (hprom : Promised state op) :
    ∃ next, step state op = some (next, (abstract.step op).2) ∧
      Related next (abstract.step op).1 := by
  obtain ⟨⟨cells, hrep, hentries, hfreed⟩, hbound⟩ := hrelated
  cases op with
  | enqueue data priority newNode =>
    obtain ⟨after, queue', hcall, hafter, hwaiting, hkept⟩ := enqueue_spec hrep hprom
    refine ⟨(after, queue'), by simp [step, hcall, Waiting.step],
      ⟨_, hafter, by simp [hwaiting, hentries, Waiting.step], hkept.trans hfreed⟩, ?_⟩
    have hlen := hafter.count
    have hbefore := hrep.count
    have hroom := hprom.2.2.2
    simp only [length_append, length_singleton] at hlen
    simp only at hroom ⊢
    omega
  | dequeue =>
    cases cells with
    | nil =>
      have hwaiting := hentries.symm
      refine ⟨state, by simp [step, dequeue_nil hrep, Waiting.step, hwaiting], ?_⟩
      simp only [Waiting.step, hwaiting]
      exact ⟨⟨[], hrep, hentries, hfreed⟩, hbound⟩
    | cons node back =>
      obtain ⟨after, queue', hcall, hafter, hkept, hreleased, hless⟩ :=
        dequeue_cons hrep hbound
      have hwaiting : abstract.waiting = (node, (state.1.nodes node).data) ::
          entries state.1.nodes back := hentries.symm
      refine ⟨(after, queue'), by simp [step, hcall, Waiting.step, hwaiting], ?_⟩
      simp only [Waiting.step, hwaiting]
      exact ⟨⟨back, hafter, hkept, by rw [hreleased, hfreed]⟩, hless⟩

/-- **The FIFO mode is a queue.** Every run of promised calls from an initialised queue returns,
and leaves in memory what the abstract queue has: the entries still waiting, linked both ways from
`head` in the order in which they came, and one `kfree` for every entry taken out. A further
`dequeue` changes nothing if none is waiting. -/
theorem run_fifo_refines (heap : Heap) (operations : List Operation)
    (hpromised : Guarded step Promised (heap, queueInit zeroed .fifo) operations) :
    ∃ final outs, run step (heap, queueInit zeroed .fifo) operations = some (final, outs) ∧
      Refines final (runPure Waiting.step ⟨[], heap.freed⟩ operations).1 ∧
      ((runPure Waiting.step ⟨[], heap.freed⟩ operations).1.waiting = [] →
        step final .dequeue = some (final, ())) := by
  have hstart : Related (heap, queueInit zeroed .fifo) ⟨[], heap.freed⟩ :=
    ⟨⟨[], represents_init heap, rfl, rfl⟩, by simp [queueInit, zeroed]⟩
  obtain ⟨final, hrun, hfinal, -⟩ := run_simulates step_related operations hstart hpromised
  refine ⟨final, _, hrun, hfinal, fun hempty ↦ ?_⟩
  obtain ⟨cells, hrep, hentries, -⟩ := hfinal
  rw [hempty] at hentries
  obtain rfl : cells = [] := map_eq_nil_iff.mp hentries
  simp [step, dequeue_nil hrep]

/-- Three entries, two of them taken out again, and the stale tail in between. -/
theorem run_fifo_refines_three :
    ∃ final outs, run step (⟨fun _ ↦ ⟨7, 7, 7, 7⟩, ∅, []⟩, queueInit zeroed .fifo)
        [.enqueue 100 0 16, .dequeue, .enqueue 101 0 24, .enqueue 102 0 32, .dequeue] =
          some (final, outs) ∧
      Refines final ⟨[(32, 102)], [16, 24]⟩ := by
  obtain ⟨final, outs, hrun, hrefines, -⟩ := run_fifo_refines ⟨fun _ ↦ ⟨7, 7, 7, 7⟩, ∅, []⟩
    [.enqueue 100 0 16, .dequeue, .enqueue 101 0 24, .enqueue 102 0 32, .dequeue]
    (by decide +kernel)
  exact ⟨final, outs, hrun, hrefines⟩

end DionysOS.DataStructures.Queue
