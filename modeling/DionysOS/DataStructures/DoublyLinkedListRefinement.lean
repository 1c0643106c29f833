import DionysOS.DataStructures.DoublyLinkedList

/-!
# The doubly linked list refines a sequence

The abstract state is the sequence of entries, each a node with its data. `Represents` ties the
header to a doubly linked chain. Its tail clause has two parts, because a list of one node has
`tail` either `NULL` or equal to `head`, depending on how it became one: an insertion into an
empty list leaves `NULL`, and a removal from two nodes leaves the node.

`doubly_linked_list_insert_head` does not set `tail`. Called on a list of one node whose `tail`
is `NULL`, it leaves two nodes and no tail; every other call keeps the invariant.
-/

namespace DionysOS.DataStructures.DoublyLinkedList

open Foundation LinkedChain PartialMachine List Function Node

def nextOf (nodes : NodeMemory) : Ptr → Ptr := fun address ↦ (nodes address).next

def prevOf (nodes : NodeMemory) : Ptr → Ptr := fun address ↦ (nodes address).prev

/-- The nodes at `cells` form a chain from `head`, linked both ways. -/
def Chain (nodes : NodeMemory) (head : Ptr) (cells : List Ptr) (last : Ptr) : Prop :=
  DoubleSegment (nextOf nodes) (prevOf nodes) NULL head cells last NULL

/-- What the header's `tail` may be. -/
structure TailFits (list : DoublyLinkedList) (cells : List Ptr) : Prop where
  many : 2 ≤ cells.length → cells.getLast? = some list.tail
  one : cells.length = 1 → list.tail = NULL ∨ list.tail = list.head

/-- The header `list` and the nodes at `cells` form a well-linked list. -/
structure Represents (heap : Heap) (list : DoublyLinkedList) (cells : List Ptr) : Prop where
  chain : ∃ last, Chain heap.nodes list.head cells last
  nonnull : NULL ∉ cells
  count : list.nodeCount = cells.length
  live : ∀ cell ∈ cells, cell ∈ heap.live
  tail : TailFits list cells

/-- The entries of a list: its nodes, with the data stored in them. -/
def entries (nodes : NodeMemory) (cells : List Ptr) : List (Ptr × Ptr) :=
  cells.map fun cell ↦ (cell, (nodes cell).data)

/-- What `kmalloc` promises about the address it returns for a node. -/
structure Fresh (heap : Heap) (address : Ptr) : Prop where
  nonnull : address ≠ NULL
  notLive : address ∉ heap.live

variable {heap : Heap} {list : DoublyLinkedList} {nodes nodes' : NodeMemory}
  {cells front back : List Ptr} {head last cell node fresh : Ptr}

variable {before after : Ptr} {sequence : List (Ptr × Ptr)}

theorem entries_congr (hagree : ∀ cell ∈ cells, (nodes' cell).data = (nodes cell).data) :
    entries nodes' cells = entries nodes cells :=
  map_congr_left fun cell hcell ↦ by rw [hagree cell hcell]

theorem map_fst_entries (nodes : NodeMemory) (cells : List Ptr) :
    (entries nodes cells).map Prod.fst = cells := by
  simp [entries, comp_def]

theorem Chain.cons (hchain : Chain nodes head (cell :: back) last) (hnodup : (cell :: back).Nodup)
    (hnew : node ∉ cell :: back) (data : Ptr) :
    Chain (update (update nodes node ⟨data, cell, NULL⟩) cell { nodes cell with prev := node }) node
      (node :: cell :: back) last := by
  obtain ⟨hne, hnotBack⟩ := not_or.mp (mt mem_cons.mpr hnew)
  refine ⟨rfl, by simp [prevOf, hne], ?_⟩
  rw [show nextOf _ node = cell by simp [nextOf, hne]]
  refine Linked.relink_first next prev hchain (fun other hother ↦ ?_) (by simp) (by simp)
  rw [update_of_ne (ne_of_mem_of_not_mem hother (nodup_cons.mp hnodup).1),
    update_of_ne (ne_of_mem_of_not_mem hother hnotBack)]

theorem Chain.snoc (hchain : Chain nodes head (front ++ [cell]) last)
    (hnodup : (front ++ [cell]).Nodup) (hnew : node ∉ front ++ [cell]) (data : Ptr) :
    Chain (update (update nodes node ⟨data, NULL, cell⟩) cell { nodes cell with next := node }) head
      ((front ++ [cell]) ++ [node]) node := by
  have hne : node ≠ cell := fun h ↦ hnew (by simp [h])
  refine doubleSegment_append.mpr ⟨cell, node, ?_, rfl, by simp [prevOf, hne], rfl,
    by simp [nextOf, hne]⟩
  refine Linked.relink_last next prev hchain (fun other hother ↦ ?_) (by simp) (by simp)
  rw [update_of_ne ((nodup_append.mp hnodup).2.2 other hother cell (by simp)),
    update_of_ne fun h ↦ hnew (by simp [← h, hother])]

def Holds (heap : Heap) (list : DoublyLinkedList) (expected : List (Ptr × Ptr)) : Prop :=
  ∃ cells, Represents heap list cells ∧ entries heap.nodes cells = expected

theorem represents_nil (heap : Heap) : Represents heap init [] :=
  ⟨⟨NULL, rfl, rfl⟩, by simp, rfl, by simp, by simp, by simp⟩

theorem holds_singleton (heap : Heap) (hne : fresh ≠ NULL) (data : Ptr) :
    Holds ⟨update heap.nodes fresh ⟨data, NULL, NULL⟩, fresh :: heap.live⟩ ⟨fresh, NULL, 1⟩
      [(fresh, data)] :=
  ⟨[fresh], ⟨⟨fresh, rfl, by simp [prevOf], rfl, by simp [nextOf]⟩, by simpa using hne.symm,
    rfl, by simp, by simp, by simp⟩, by simp [entries]⟩

section

variable (hrep : Represents heap list cells)
include hrep

theorem Represents.nodup : cells.Nodup := by
  obtain ⟨last, hchain⟩ := hrep.chain
  exact hchain.segment.nodup hrep.nonnull

theorem Represents.ne_null (hcell : cell ∈ cells) : cell ≠ NULL :=
  fun h ↦ hrep.nonnull (h ▸ hcell)

theorem Represents.ne_fresh (hfresh : Fresh heap fresh) (hcell : cell ∈ cells) : cell ≠ fresh :=
  fun h ↦ hfresh.notLive (h ▸ hrep.live cell hcell)

theorem Represents.fresh_notMem (hfresh : Fresh heap fresh) : fresh ∉ cells :=
  fun h ↦ hrep.ne_fresh hfresh h rfl

theorem Represents.entries_insert (hfresh : Fresh heap fresh) {link new : Node}
    (hlink : link.data = (heap.nodes cell).data) :
    entries (update (update heap.nodes fresh new) cell link) cells = entries heap.nodes cells := by
  refine entries_congr fun other hother ↦ ?_
  by_cases h : other = cell
  · simp [h, hlink]
  · simp [h, hrep.ne_fresh hfresh hother]

theorem Represents.insert {list' : DoublyLinkedList} {cells' : List Ptr} (hfresh : Fresh heap fresh)
    (hperm : cells' ~ fresh :: cells) (hchain : Chain nodes' list'.head cells' last)
    (hcount : list'.nodeCount = list.nodeCount + 1) (htail : TailFits list' cells') :
    Represents ⟨nodes', fresh :: heap.live⟩ list' cells' := by
  refine ⟨⟨last, hchain⟩, ?_, ?_, fun cell hcell ↦ ?_, htail⟩
  · rw [hperm.mem_iff, mem_cons, not_or]
    exact ⟨hfresh.nonnull.symm, hrep.nonnull⟩
  · rw [hcount, hrep.count, hperm.length_eq, length_cons]
  · exact cons_subset_cons _ hrep.live (hperm.mem_iff.mp hcell)

end

theorem Represents.erase (hrep : Represents heap list (front ++ node :: back)) {tail : Ptr}
    (hchain : ∃ last, Chain nodes' head (front ++ back) last)
    (htail : TailFits ⟨head, tail, list.nodeCount - 1⟩ (front ++ back))
    (hdata : ∀ cell, (nodes' cell).data = (heap.nodes cell).data) :
    Holds ⟨nodes', heap.live.erase node⟩ ⟨head, tail, list.nodeCount - 1⟩
      (entries heap.nodes (front ++ back)) := by
  have hnodup := nodup_cons.mp (nodup_middle.mp hrep.nodup)
  have hrest : ∀ cell ∈ front ++ back, cell ∈ front ++ node :: back := fun cell hcell ↦
    perm_middle.symm.subset (mem_cons_of_mem _ hcell)
  refine ⟨front ++ back, ⟨hchain, fun h ↦ hrep.nonnull (hrest _ h), ?_,
    fun cell hcell ↦ ?_, htail⟩, entries_congr fun cell _ ↦ hdata cell⟩
  · simp [hrep.count, ← add_assoc]
  · exact (mem_erase_of_ne (ne_of_mem_of_not_mem hcell hnodup.1)).mpr
      (hrep.live cell (hrest cell hcell))

theorem data_update_link {link : Node} (hlink : link.data = (nodes node).data) (cell : Ptr) :
    (update nodes node link cell).data = (nodes cell).data := by
  by_cases h : cell = node
  · simp [h, hlink]
  · simp [h]

theorem Represents.dropLast (hrep : Represents heap list ((front ++ [cell]) ++ [node])) :
    Holds ⟨update heap.nodes cell { heap.nodes cell with next := NULL },
        heap.live.erase node⟩ ⟨list.head, cell, list.nodeCount - 1⟩
      (entries heap.nodes ((front ++ [cell]) ++ [])) := by
  obtain ⟨last, hchain⟩ := hrep.chain
  obtain ⟨mid, enter, hfront, -⟩ := doubleSegment_append.mp hchain
  have hnodup := nodup_append.mp hrep.nodup.of_append_left
  refine hrep.erase ⟨cell, ?_⟩ ⟨by simp, fun hone ↦ ?_⟩ (data_update_link rfl)
  · rw [append_nil]
    exact Linked.relink_last next prev hfront (fun other hother ↦
      update_of_ne (hnodup.2.2 other hother cell (by simp)) ..) (by simp) (by simp)
  · obtain rfl : front = [] := by simpa using hone
    exact .inr hchain.1.symm

theorem Represents.dropHead (hrep : Represents heap list ([] ++ node :: cell :: back)) :
    Holds ⟨update heap.nodes cell { heap.nodes cell with prev := NULL },
        heap.live.erase node⟩ ⟨cell, list.tail, list.nodeCount - 1⟩
      (entries heap.nodes ([] ++ cell :: back)) := by
  obtain ⟨last, hchain⟩ := hrep.chain
  have hnodup := nodup_cons.mp (nodup_cons.mp hrep.nodup).2
  have htail := hrep.tail.many (by simp)
  refine hrep.erase ⟨last, Linked.relink_first next prev hchain.2.2 (fun other hother ↦
    update_of_ne (ne_of_mem_of_not_mem hother hnodup.1) ..) (by simp) (by simp)⟩
    ⟨fun _ ↦ htail, fun hone ↦ ?_⟩ (data_update_link rfl)
  obtain rfl : back = [] := by simpa using hone
  exact .inr (by simpa using htail.symm)

theorem Represents.dropInner
    (hrep : Represents heap list ((front ++ [before]) ++ node :: after :: back)) :
    Holds ⟨update (update heap.nodes before { heap.nodes before with next := after }) after
          { heap.nodes after with prev := before }, heap.live.erase node⟩
      ⟨list.head, list.tail, list.nodeCount - 1⟩
      (entries heap.nodes ((front ++ [before]) ++ after :: back)) := by
  obtain ⟨last, hchain⟩ := hrep.chain
  obtain ⟨mid, enter, hfront, -, -, hback⟩ := doubleSegment_append.mp hchain
  obtain ⟨hnodup, hnodupBack, hdisj⟩ := nodup_append.mp hrep.nodup
  have hnodupFront := nodup_append.mp hnodup
  have hnodupBack := nodup_cons.mp (nodup_cons.mp hnodupBack).2
  have hne : before ≠ after := hdisj before (by simp) after (by simp)
  refine hrep.erase ⟨last, doubleSegment_append.mpr ⟨before, after, ?_, ?_⟩⟩
    ⟨fun _ ↦ ?_, ?_⟩ fun cell ↦ ?_
  · refine Linked.relink_last next prev hfront (fun other hother ↦ ?_) (by simp [hne]) (by simp [hne])
    rw [update_of_ne (hdisj other (by simp [hother]) after (by simp)),
      update_of_ne (hnodupFront.2.2 other hother before (by simp))]
  · refine Linked.relink_first next prev hback (fun other hother ↦ ?_) (by simp) (by simp)
    rw [update_of_ne (ne_of_mem_of_not_mem hother hnodupBack.1),
      update_of_ne (hdisj before (by simp) other (by simp [hother])).symm]
  · simpa [getLast?_append, getLast?_cons] using hrep.tail.many (by simp; omega)
  · simp only [length_append, length_cons]
    omega
  · have hlink : { heap.nodes before with next := after }.data = (heap.nodes before).data := rfl
    exact (data_update_link (by simp [hne.symm]) cell).trans (data_update_link hlink cell)

theorem eraseP_entries (hnotMem : node ∉ front) :
    (entries nodes (front ++ node :: back)).eraseP (fun entry ↦ entry.1 = node) =
      entries nodes (front ++ back) := by
  have hfront : ∀ entry ∈ entries nodes front, ¬ decide (entry.1 = node) = true := by
    intro entry hentry
    obtain ⟨cell, hcell, rfl⟩ := mem_map.mp hentry
    simpa using fun h : cell = node ↦ hnotMem (h ▸ hcell)
  have hsplit : entries nodes (front ++ node :: back) =
      entries nodes front ++ (node, (nodes node).data) :: entries nodes back := by simp [entries]
  rw [hsplit, eraseP_append_right _ hfront, eraseP_cons_of_pos (by simp)]
  simp [entries]

section

variable (hrep : Represents heap list cells)
include hrep

theorem insertTail_spec (hfresh : Fresh heap fresh)
    (data : Ptr) : ∃ after list', insertTail heap list data fresh = some (after, list') ∧
      Holds after list' (entries heap.nodes cells ++ [(fresh, data)]) := by
  have hcount := hrep.count
  rcases eq_nil_or_concat cells with rfl | ⟨front, cell, rfl⟩
  · refine ⟨_, _, ?_, holds_singleton heap hfresh.nonnull data⟩
    simp [insertTail, hcount, kmalloc, hfresh.nonnull, zero]
  · rw [concat_eq_append] at *
    obtain ⟨last, hchain⟩ := hrep.chain
    have hcell : cell ≠ NULL := hrep.ne_null (by simp)
    have hcellNew : cell ≠ fresh := hrep.ne_fresh hfresh (by simp)
    -- With one node the code goes through `head`, with more through `tail`: the same node.
    let nodes' := update (update heap.nodes fresh ⟨data, NULL, cell⟩) cell
      { heap.nodes cell with next := fresh }
    have hinsert : insertTail heap list data fresh =
        some (⟨nodes', fresh :: heap.live⟩, ⟨list.head, fresh, list.nodeCount + 1⟩) := by
      by_cases hone : list.nodeCount = 1
      · obtain rfl : front = [] := by
          simpa [hone] using hcount
        obtain rfl : list.head = cell := hchain.1
        simp [insertTail, hone, kmalloc, hfresh.nonnull, hcell, hcellNew,
          hcellNew.symm, nodes', zero, update_comm hcellNew]
      · have htwo : 2 ≤ (front ++ [cell]).length := by
          simp only [length_append, length_singleton] at hcount ⊢
          omega
        obtain rfl : cell = list.tail := by simpa using hrep.tail.many htwo
        have hzero : list.nodeCount ≠ 0 := by omega
        simp [insertTail, hone, hzero, kmalloc, hfresh.nonnull, hcell, hcellNew,
          hcellNew.symm, nodes', zero, update_comm hcellNew]
    refine ⟨_, _, hinsert, _, hrep.insert hfresh (perm_append_singleton ..)
      (hchain.snoc hrep.nodup (hrep.fresh_notMem hfresh) data) rfl
      ⟨by simp, by simp⟩, ?_⟩
    rw [entries, map_append]
    congr 1
    · exact hrep.entries_insert hfresh rfl
    · simp [nodes', hcellNew.symm]

theorem insertHead_spec (hfresh : Fresh heap fresh)
    (hmeets : ¬ (list.nodeCount = 1 ∧ list.tail = NULL)) (data : Ptr) :
    ∃ after list', insertHead heap list data fresh = some (after, list') ∧
      Holds after list' ((fresh, data) :: entries heap.nodes cells) := by
  have hcount := hrep.count
  cases cells with
  | nil =>
    refine ⟨_, _, ?_, holds_singleton heap hfresh.nonnull data⟩
    simp [insertHead, hcount, kmalloc, hfresh.nonnull, zero]
  | cons cell back =>
    obtain ⟨last, hchain⟩ := hrep.chain
    obtain rfl : list.head = cell := hchain.1
    have hhead : list.head ≠ NULL := hrep.ne_null (by simp)
    have hheadNew : list.head ≠ fresh := hrep.ne_fresh hfresh (by simp)
    have hzero : list.nodeCount ≠ 0 := by simp [hcount]
    let nodes' := update (update heap.nodes fresh ⟨data, list.head, NULL⟩)
      list.head { heap.nodes list.head with prev := fresh }
    have hinsert : insertHead heap list data fresh =
        some (⟨nodes', fresh :: heap.live⟩, ⟨fresh, list.tail, list.nodeCount + 1⟩) := by
      simp [insertHead, hzero, kmalloc, hfresh.nonnull, hhead, hheadNew, nodes', zero,
        hheadNew.symm, update_comm hheadNew]
    refine ⟨_, _, hinsert, _, hrep.insert hfresh (.refl _)
      (hchain.cons hrep.nodup (hrep.fresh_notMem hfresh) data) rfl
      ⟨fun _ ↦ ?_, by simp⟩, ?_⟩
    · -- A list of one node passes its `tail` on, so it has to be the node and not `NULL`.
      cases back with
      | nil =>
        have hone : list.nodeCount = 1 := hcount
        rcases hrep.tail.one rfl with htail | htail
        · exact absurd ⟨hone, htail⟩ hmeets
        · simp [htail]
      | cons second rest => exact hrep.tail.many (by simp)
    · rw [entries, map_cons]
      congr 1
      · simp [nodes', hheadNew.symm]
      · exact hrep.entries_insert hfresh rfl

theorem removeTail_spec :
    ∃ after list', removeTail heap list = some (after, list') ∧
      Holds after list' (entries heap.nodes cells).dropLast := by
  have hcount := hrep.count
  obtain ⟨last, hchain⟩ := hrep.chain
  rcases eq_nil_or_concat cells with rfl | ⟨init, node, rfl⟩
  · have hzero : list.nodeCount = 0 := hcount
    exact ⟨heap, list, by simp [removeTail, hzero], [], hrep, by simp [entries]⟩
  rw [concat_eq_append] at *
  rcases eq_nil_or_concat init with rfl | ⟨front, cell, rfl⟩
  · have hone : list.nodeCount = 1 := hcount
    exact ⟨kfree heap list.head, ⟨NULL, NULL, 0⟩, by simp [removeTail, hone], [],
      represents_nil _, by simp [entries]⟩
  · rw [concat_eq_append] at *
    have htail : list.tail = node := by
      simpa using (hrep.tail.many (by simp)).symm
    obtain ⟨mid, enter, hfront, henter, hprev, -⟩ := doubleSegment_append.mp hchain
    have hnext : (heap.nodes cell).next = node := hfront.segment.next_last.trans henter
    rw [hfront.last_eq, prevOf] at hprev
    have hnode : node ≠ NULL := hrep.ne_null (by simp)
    have hcell : cell ≠ NULL := hrep.ne_null (by simp)
    have hmany : list.nodeCount ≠ 0 ∧ list.nodeCount ≠ 1 := by
      simp only [length_append, length_singleton] at hcount
      omega
    refine ⟨_, _, ?_, by simpa [entries] using hrep.dropLast⟩
    simp [removeTail, hmany, htail, hnode, hprev, hcell, hnext, kfree]

theorem removeHead_spec :
    ∃ after list', removeHead heap list = some (after, list') ∧
      Holds after list' (entries heap.nodes cells).tail := by
  have hcount := hrep.count
  obtain ⟨last, hchain⟩ := hrep.chain
  match cells with
  | [] =>
    have hzero : list.nodeCount = 0 := hcount
    exact ⟨heap, list, by simp [removeHead, hzero], [], hrep, by simp [entries]⟩
  | [node] =>
    have hone : list.nodeCount = 1 := hcount
    exact ⟨kfree heap list.head, ⟨NULL, NULL, 0⟩, by simp [removeHead, hone], [],
      represents_nil _, by simp [entries]⟩
  | node :: cell :: back =>
    obtain ⟨hhead, -, hnext, hprev, -⟩ := hchain
    have hnode : node ≠ NULL := hrep.ne_null (by simp)
    have hcell : cell ≠ NULL := hrep.ne_null (by simp)
    have hmany : list.nodeCount ≠ 0 ∧ list.nodeCount ≠ 1 := by
      simp only [length_cons] at hcount
      omega
    rw [prevOf] at hprev
    rw [nextOf] at hnext
    refine ⟨_, _, ?_, by simpa [entries] using hrep.dropHead⟩
    simp [removeHead, hmany, hhead, hnode, hnext, hcell, hprev, kfree]

theorem removeNodeByAddress_spec (hnode : node ∈ cells) :
    ∃ after list', removeNodeByAddress heap list node = some (after, list') ∧
      Holds after list' ((entries heap.nodes cells).eraseP fun entry ↦ entry.1 = node) := by
  obtain ⟨front, back, rfl⟩ := append_of_mem hnode
  obtain ⟨last, hchain⟩ := hrep.chain
  obtain ⟨-, -, hdisj⟩ := nodup_append.mp hrep.nodup
  rw [eraseP_entries fun h ↦ hdisj node h node mem_cons_self rfl]
  have hne : node ≠ NULL := hrep.ne_null hnode
  obtain ⟨mid, enter, hfront, -, hprev, hback⟩ := doubleSegment_append.mp hchain
  rw [prevOf] at hprev
  -- The four branches of the code are the four combinations of a first and a last node.
  rcases eq_nil_or_concat front with rfl | ⟨front, before, rfl⟩
  · obtain ⟨rfl, -⟩ := hfront
    cases back with
    | nil =>
      have hnext : (heap.nodes node).next = NULL := hback.2
      have hcount : list.nodeCount = 1 := hrep.count
      exact ⟨⟨heap.nodes, heap.live.erase node⟩, init,
        by simp [removeNodeByAddress, hne, hnext, hprev, hcount, init], [],
        represents_nil _, by simp [entries]⟩
    | cons after back =>
      have hnext : (heap.nodes node).next = after := hback.1
      have hafter : after ≠ NULL := hrep.ne_null (by simp)
      exact ⟨_, _, by simp [removeNodeByAddress, hne, hnext, hprev, hafter],
        hrep.dropHead⟩
  · rw [concat_eq_append] at *
    rw [hfront.last_eq] at hprev
    have hbefore : before ≠ NULL := hrep.ne_null (by simp)
    cases back with
    | nil =>
      have hnext : (heap.nodes node).next = NULL := hback.2
      exact ⟨_, _, by simp [removeNodeByAddress, hne, hnext, hprev, hbefore],
        hrep.dropLast⟩
    | cons after back =>
      have hnext : (heap.nodes node).next = after := hback.1
      have hafter : after ≠ NULL := hrep.ne_null (by simp)
      have hneBefore : node ≠ before := (hdisj before (by simp) node (by simp)).symm
      have hneAfter : after ≠ before := (hdisj before (by simp) after (by simp)).symm
      refine ⟨_, _, ?_, hrep.dropInner⟩
      simp [removeNodeByAddress, hne, hnext, hprev, hbefore, hafter, hneBefore, hneAfter]

end

/-- A call on the list. `fresh` is the address `kmalloc` returns. -/
inductive Operation where
  | insertHead (data fresh : Ptr)
  | insertTail (data fresh : Ptr)
  | removeHead
  | removeTail
  | removeNodeByAddress (node : Ptr)
deriving DecidableEq, Repr

abbrev Machine := Heap × DoublyLinkedList

def step : Machine → Operation → Option (Machine × Unit)
  | (heap, list), .insertHead data fresh =>
      (insertHead heap list data fresh).map fun after ↦ (after, ())
  | (heap, list), .insertTail data fresh =>
      (insertTail heap list data fresh).map fun after ↦ (after, ())
  | (heap, list), .removeHead => (removeHead heap list).map fun after ↦ (after, ())
  | (heap, list), .removeTail => (removeTail heap list).map fun after ↦ (after, ())
  | (heap, list), .removeNodeByAddress node =>
      (removeNodeByAddress heap list node).map fun after ↦ (after, ())

def sequenceStep : List (Ptr × Ptr) → Operation → List (Ptr × Ptr) × Unit
  | sequence, .insertHead data fresh => ((fresh, data) :: sequence, ())
  | sequence, .insertTail data fresh => (sequence ++ [(fresh, data)], ())
  | sequence, .removeHead => (sequence.tail, ())
  | sequence, .removeTail => (sequence.dropLast, ())
  | sequence, .removeNodeByAddress node => (sequence.eraseP fun entry ↦ entry.1 = node, ())

/-- Walking `next` from `head` reads `sequence`, walking `prev` from the last node reads it
backwards, `tail` is the last node of two or more, and `node_count` is the length. -/
def HoldsSequence (machine : Machine) (sequence : List (Ptr × Ptr)) : Prop :=
  ∃ cells last, Segment (nextOf machine.1.nodes) machine.2.head cells NULL ∧
    Segment (prevOf machine.1.nodes) last cells.reverse NULL ∧ NULL ∉ cells ∧
    entries machine.1.nodes cells = sequence ∧ machine.2.nodeCount = sequence.length ∧
    (2 ≤ sequence.length → machine.2.tail = last)

/-- The run returns and leaves the list with the entries that the pure run computes. -/
def RunRefines (machine : Machine) (operations : List Operation) : Prop :=
  ∃ final, run step machine operations = some (final, (runPure sequenceStep [] operations).2) ∧
    HoldsSequence final (runPure sequenceStep [] operations).1

/-- What the caller and the allocator promise: a removal by address names a node of the list, and
`kmalloc` returns an unused address. -/
def Promised (machine : Machine) : Operation → Prop
  | .insertHead _ fresh => Fresh machine.1 fresh
  | .insertTail _ fresh => Fresh machine.1 fresh
  | .removeNodeByAddress node => ∃ cells,
      Segment (nextOf machine.1.nodes) machine.2.head cells NULL ∧ NULL ∉ cells ∧ node ∈ cells
  | _ => True

/-- `insert_head` is not called on a list of one node without a tail. -/
def Meets (machine : Machine) : Operation → Prop
  | .insertHead _ _ => ¬ (machine.2.nodeCount = 1 ∧ machine.2.tail = NULL)
  | _ => True

def Admissible (machine : Machine) (operation : Operation) : Prop :=
  Promised machine operation ∧ Meets machine operation

variable {machine : Machine}

theorem step_of_call {call : Option Machine}
    (hcall : ∃ after list', call = some (after, list') ∧ Holds after list' sequence) :
    ∃ next, (call.map fun after ↦ (after, ())) = some (next, ()) ∧ Holds next.1 next.2 sequence := by
  obtain ⟨after, list', rfl, hholds⟩ := hcall
  exact ⟨(after, list'), rfl, hholds⟩

theorem step_refines {op : Operation}
    (hholds : Holds machine.1 machine.2 sequence) (hadmissible : Admissible machine op) :
    ∃ next, step machine op = some (next, (sequenceStep sequence op).2) ∧
      Holds next.1 next.2 (sequenceStep sequence op).1 := by
  obtain ⟨heap, list⟩ := machine
  obtain ⟨cells, hrep, rfl⟩ := hholds
  obtain ⟨hprom, hmeets⟩ := hadmissible
  cases op with
  | insertHead data fresh => exact step_of_call (insertHead_spec hrep hprom hmeets data)
  | insertTail data fresh => exact step_of_call (insertTail_spec hrep hprom data)
  | removeHead => exact step_of_call (removeHead_spec hrep)
  | removeTail => exact step_of_call (removeTail_spec hrep)
  | removeNodeByAddress node =>
    obtain ⟨other, hseg, hne, hnode⟩ := hprom
    obtain ⟨last, hchain⟩ := hrep.chain
    obtain rfl : cells = other :=
      hchain.segment.unique hrep.nonnull hseg hne
    exact step_of_call (removeNodeByAddress_spec hrep hnode)

theorem Holds.holdsSequence
    (hholds : Holds machine.1 machine.2 sequence) : HoldsSequence machine sequence := by
  obtain ⟨cells, hrep, rfl⟩ := hholds
  obtain ⟨last, hchain⟩ := hrep.chain
  have hlen : (entries machine.1.nodes cells).length = cells.length := by simp [entries]
  refine ⟨cells, last, hchain.segment, hchain.reverse.segment, hrep.nonnull, rfl,
    hrep.count.trans hlen.symm, fun htwo ↦ ?_⟩
  have htail := hrep.tail.many (hlen ▸ htwo)
  obtain ⟨front, rfl⟩ := getLast?_eq_some_iff.mp htail
  exact hchain.last_eq.symm

/-- **Refinement of runs.** Every run from an empty list whose calls are promised and meet
`Meets` returns and keeps the list, both directions of its links, its tail and its count right. -/
theorem init_refines_entries (heap : Heap) (operations : List Operation)
    (hguarded : Guarded step Admissible (heap, init) operations) :
    RunRefines (heap, init) operations := by
  have hstep : ∀ (machine : Machine) sequence op, Holds machine.1 machine.2 sequence →
      Admissible machine op →
      ∃ next, step machine op = some (next, (sequenceStep sequence op).2) ∧
        Holds next.1 next.2 (sequenceStep sequence op).1 :=
    fun _ _ _ ↦ step_refines
  have hempty : Holds heap init [] := ⟨[], represents_nil heap, rfl⟩
  obtain ⟨final, hrun, hfinal⟩ := run_simulates hstep operations hempty hguarded
  exact ⟨final, hrun, hfinal.holdsSequence⟩

def bootHeap : Heap := ⟨fun _ ↦ Node.zero, []⟩

/-- A run that empties a list of two nodes to one and then inserts at the head: `tail` is the
remaining node by then. -/
theorem init_refines_entries_headAfterRemoval :
    RunRefines (bootHeap, init)
      [.insertTail 100 8, .insertTail 200 16, .removeNodeByAddress 8, .insertHead 300 24] := by
  refine init_refines_entries bootHeap _ ⟨⟨⟨by decide, by decide⟩, trivial⟩, fun next out hstep ↦ ?_⟩
  cases hstep
  refine ⟨⟨⟨by decide, by decide⟩, trivial⟩, fun next out hstep ↦ ?_⟩
  cases hstep
  refine ⟨⟨⟨[8, 16], ⟨rfl, rfl, rfl⟩, by decide, by decide⟩, trivial⟩, fun next out hstep ↦ ?_⟩
  cases hstep
  exact ⟨⟨⟨by decide, by decide⟩, by simp [Meets]⟩, fun _ _ _ ↦ trivial⟩

/-- Two insertions at the head leave two nodes and no tail. -/
theorem insertHead_twice_loses_tail :
    Guarded step Promised (bootHeap, init) [.insertHead 100 8, .insertHead 200 16] ∧
      ¬ RunRefines (bootHeap, init) [.insertHead 100 8, .insertHead 200 16] := by
  constructor
  · refine ⟨⟨by decide, by decide⟩, fun next out hstep ↦ ?_⟩
    cases hstep
    exact ⟨⟨by decide, by decide⟩, fun _ _ _ ↦ trivial⟩
  · rintro ⟨final, hrun, cells, last, hnext, hprev, hne, hentries, -, htail⟩
    cases hrun
    have hlast : NULL = last := htail (by decide)
    have hcells : cells = [16, 8] :=
      (map_fst_entries _ cells).symm.trans (congrArg (map Prod.fst) hentries)
    rw [hcells] at hprev
    exact absurd (hlast.trans hprev.1) (by decide)

end DionysOS.DataStructures.DoublyLinkedList
