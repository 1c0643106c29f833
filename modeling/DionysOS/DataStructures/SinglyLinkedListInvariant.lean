import DionysOS.DataStructures.SinglyLinkedList

/-!
# The representation invariant of the singly linked list

`Coherent` ties a list header, the nodes it reaches and the nodes of `free_nodes` together: both
are well linked, they share no node, and every node is owned by the static pool or by `_kalloc`.
The tail pointer is left out on purpose. The code lets it go stale, and `TailLast` says when it
has not.

Allocating and releasing a node are specified once. Every insertion ends in `Coherent.adopt` and
every removal in `Coherent.release`, and `Confined` records that a call touches nothing but its
own list and the free nodes, so that lists sharing the pool do not disturb each other.
-/

namespace DionysOS.DataStructures.SinglyLinkedList

open Foundation.LinkedChain List Function Node

def nextOf (nodes : NodeMemory) : Ptr → Ptr := fun address ↦ (nodes address).next

/-- The header `list` and the nodes at `cells` form a well-linked list. -/
structure Represents (nodes : NodeMemory) (list : SinglyLinkedList) (cells : List Ptr) : Prop where
  segment : Segment (nextOf nodes) list.head cells NULL
  nonnull : NULL ∉ cells
  count : list.nodeCount = cells.length

def contents (nodes : NodeMemory) (cells : List Ptr) : List Ptr :=
  cells.map fun cell ↦ (nodes cell).data

/-- `list->tail` points at the last node, or the list has one node and no tail. -/
def TailLast (list : SinglyLinkedList) (cells : List Ptr) : Prop :=
  (list.tail = NULL ∧ cells.length = 1) ∨ cells.getLast? = some list.tail

/-- The nodes of `free_nodes` are `free`: unused nodes of the static pool, each with itself as
data. -/
structure Pooled (pool : List Ptr) (state : NodeStore) (free : List Ptr) : Prop where
  represents : Represents state.nodes state.freeNodes free
  data : ∀ cell ∈ free, (state.nodes cell).data = cell
  static : ∀ cell ∈ free, (state.nodes cell).staticPoolNode = true
  pool : ∀ cell ∈ free, cell ∈ pool

/-- A node in use comes from the static pool or from `_kalloc`, as its flag says. -/
def Owned (pool : List Ptr) (state : NodeStore) (cell : Ptr) : Prop :=
  if (state.nodes cell).staticPoolNode then cell ∈ pool else cell ∈ state.kallocLive

/-- What `_kalloc` promises about the address it returns for a node. -/
@[mk_iff]
structure Fresh (pool : List Ptr) (state : NodeStore) (address : Ptr) : Prop where
  nonnull : address ≠ NULL
  notLive : address ∉ state.kallocLive
  notPool : address ∉ pool

instance (pool : List Ptr) (state : NodeStore) (address : Ptr) : Decidable (Fresh pool state address) :=
  decidable_of_iff' _ (fresh_iff pool state address)

/-- The state of the module around one list: the list's nodes and the free nodes are well linked
and share no node. -/
structure Coherent (pool : List Ptr) (state : NodeStore) (list : SinglyLinkedList)
    (cells free : List Ptr) : Prop where
  pooled : Pooled pool state free
  represents : Represents state.nodes list cells
  ordinary : list.flagFreeNodes = false
  owned : ∀ cell ∈ cells, Owned pool state cell
  disjoint : ∀ cell ∈ cells, cell ∉ free

/-- A call on the list at `cells` touches only its own nodes, free nodes and the new address. -/
structure Confined (before after : NodeStore) (cells free cells' free' : List Ptr)
    (fresh : Ptr) : Prop where
  nodes : ∀ address, address ∉ cells → address ∉ free → address ≠ fresh →
    after.nodes address = before.nodes address
  live : ∀ address, address ∉ cells → address ∈ before.kallocLive → address ∈ after.kallocLive
  ownCells : ∀ cell ∈ cells', cell ∈ cells ∨ cell ∈ free ∨ cell = fresh
  freeCells : ∀ cell ∈ free', cell ∈ cells ∨ cell ∈ free
  setup : after.staticPoolSetup = before.staticPoolSetup

/-- What a call leaves behind that turned the list at `cells` into one with contents `expected` and
some property. -/
def BecomesWith (property : SinglyLinkedList → List Ptr → Prop) (pool : List Ptr) (state : NodeStore)
    (cells free : List Ptr) (fresh : Ptr) (after : NodeStore) (list' : SinglyLinkedList)
    (expected : List Ptr) : Prop :=
  ∃ cells' free', Coherent pool after list' cells' free' ∧
    contents after.nodes cells' = expected ∧ Confined state after cells free cells' free' fresh ∧
    property list' cells'

/-- The same for a call of which only the contents matter. -/
abbrev Becomes := BecomesWith fun _ _ ↦ True

variable {pool cells free : List Ptr} {state : NodeStore} {list : SinglyLinkedList}
  {nodes : NodeMemory} {data fresh : Ptr}

theorem nextOf_update (nodes : NodeMemory) (addr : Ptr) (node : Node) :
    nextOf (update nodes addr node) = update (nextOf nodes) addr node.next := by
  funext other
  by_cases h : other = addr
  · subst h
    simp [nextOf]
  · simp [nextOf, h]

theorem Represents.nodup (hrep : Represents nodes list cells) : cells.Nodup :=
  hrep.segment.nodup hrep.nonnull

theorem Represents.unique {other : List Ptr} (hcells : Represents nodes list cells)
    (hother : Represents nodes list other) : cells = other :=
  hcells.segment.unique hcells.nonnull hother.segment hother.nonnull

variable {nodes' : NodeMemory} {cell node : Ptr} {free' : List Ptr} {taken : NodeStore}

section

variable (hrep : Represents nodes list cells)
include hrep

theorem Represents.exists_cons
    (hcount : list.nodeCount ≠ 0) : ∃ rest, cells = list.head :: rest := by
  cases cells with
  | nil => exact absurd hrep.count hcount
  | cons cell rest => exact ⟨rest, by rw [hrep.segment.head_eq]⟩

theorem Represents.head_ne_null (hcount : list.nodeCount ≠ 0) : list.head ≠ NULL := by
  obtain ⟨rest, rfl⟩ := hrep.exists_cons hcount
  intro hnull
  exact hrep.nonnull (hnull ▸ mem_cons_self)

theorem Represents.head_eq_null (hcount : list.nodeCount = 0) : list.head = NULL := by
  obtain rfl : cells = [] := length_eq_zero_iff.mp (hrep.count.symm.trans hcount)
  exact hrep.segment

theorem Represents.congr (hagree : ∀ cell ∈ cells, (nodes' cell).next = (nodes cell).next) :
    Represents nodes' list cells :=
  ⟨hrep.segment.congr hagree, hrep.nonnull, hrep.count⟩

end

theorem contents_congr (hagree : ∀ cell ∈ cells, (nodes' cell).data = (nodes cell).data) :
    contents nodes' cells = contents nodes cells :=
  map_congr_left hagree

theorem Owned.mono {before after : NodeStore} (howned : Owned pool before cell)
    (hstatic : (after.nodes cell).staticPoolNode = (before.nodes cell).staticPoolNode)
    (hlive : cell ∈ before.kallocLive → cell ∈ after.kallocLive) : Owned pool after cell := by
  unfold Owned at howned ⊢
  rw [hstatic]
  split
  · rename_i h
    rwa [if_pos h] at howned
  · rename_i h
    rw [if_neg h] at howned
    exact hlive howned

theorem linkHead_spec (hrep : Represents nodes list cells) {newHead : Ptr}
    (hnonnull : newHead ≠ NULL) (hnew : newHead ∉ cells) (data : Ptr) :
    ∃ list', linkHead nodes list newHead data =
        some (update nodes newHead { nodes newHead with data := data, next := list.head }, list') ∧
      Represents (update nodes newHead
        { nodes newHead with data := data, next := list.head }) list' (newHead :: cells) ∧
      list'.flagFreeNodes = list.flagFreeNodes ∧
      list'.tail = if cells.length = 0 then NULL
        else if cells.length = 1 then list.head else list.tail := by
  refine ⟨{ list with
    head := newHead
    tail := if cells.length = 0 then NULL
      else if cells.length = 1 then list.head else list.tail
    nodeCount := list.nodeCount + 1 }, ?_, ⟨⟨rfl, ?_⟩, ?_, ?_⟩, rfl, rfl⟩
  · rw [← hrep.count]
    by_cases hzero : list.nodeCount = 0
    · simp [linkHead, hnonnull, hzero, hrep.head_eq_null hzero]
    · by_cases hone : list.nodeCount = 1
      · obtain ⟨rest, rfl⟩ := hrep.exists_cons hzero
        obtain rfl : rest = [] := by
          have hlen := hrep.count
          simp only [length_cons] at hlen
          exact length_eq_zero_iff.mp (by omega)
        have hne : list.head ≠ newHead := fun h ↦ hnew (h ▸ mem_cons_self)
        -- the only node already ends the list, so `list->tail->next = NULL` changes nothing
        have hlast : (nodes list.head).next = NULL := hrep.segment.2
        have hsame : { nodes list.head with next := NULL } = nodes list.head := by rw [← hlast]
        simp [linkHead, hnonnull, hone, hrep.head_ne_null hzero, hne, hsame,
          update_eq_self_iff]
      · simp [linkHead, hnonnull, hzero, hone]
  · rw [nextOf_update, update_self]
    exact hrep.segment.update_of_notMem hnew
  · simp only [mem_cons, not_or]
    exact ⟨hnonnull.symm, hrep.nonnull⟩
  · simp [hrep.count]

theorem linkHead_freeNodes (hpooled : Pooled pool state free) (hnonnull : node ≠ NULL)
    (hnotFree : node ∉ free) (hpool : node ∈ pool) (cleared : Node)
    (hstatic : cleared.staticPoolNode = true) :
    ∃ nodes' freeNodes', linkHead (update state.nodes node cleared) state.freeNodes
        node node = some (nodes', freeNodes') ∧
      Pooled pool { state with nodes := nodes', freeNodes := freeNodes' } (node :: free) ∧
      ∀ address, address ≠ node → nodes' address = state.nodes address := by
  have hne : ∀ cell ∈ free, cell ≠ node := fun cell hcell h ↦ hnotFree (h ▸ hcell)
  have hcleared : Represents (update state.nodes node cleared) state.freeNodes free :=
    hpooled.represents.congr fun cell hcell ↦ by simp [hne cell hcell]
  obtain ⟨freeNodes', hlink, hrep, -, -⟩ :=
    linkHead_spec hcleared hnonnull hnotFree node
  refine ⟨_, freeNodes', hlink, ⟨hrep, ?_, ?_, ?_⟩, fun address haddr ↦ by
    simp [haddr]⟩
  · intro cell hcell
    rcases mem_cons.mp hcell with rfl | hcell
    · simp
    · simpa [hne cell hcell] using hpooled.data cell hcell
  · intro cell hcell
    rcases mem_cons.mp hcell with rfl | hcell
    · simpa using hstatic
    · simpa [hne cell hcell] using hpooled.static cell hcell
  · intro cell hcell
    rcases mem_cons.mp hcell with rfl | hcell
    · exact hpool
    · exact hpooled.pool cell hcell

theorem Pooled.congr {after : NodeStore} (hpooled : Pooled pool state free)
    (hagree : ∀ cell ∈ free, after.nodes cell = state.nodes cell)
    (hhdr : after.freeNodes = state.freeNodes) : Pooled pool after free where
  represents := hhdr ▸ hpooled.represents.congr fun cell hcell ↦ by rw [hagree cell hcell]
  data cell hcell := by simpa [hagree cell hcell] using hpooled.data cell hcell
  static cell hcell := by simpa [hagree cell hcell] using hpooled.static cell hcell
  pool := hpooled.pool

structure NodeTaken (pool : List Ptr) (before after : NodeStore) (free free' : List Ptr)
    (node fresh : Ptr) : Prop where
  pooled : Pooled pool after free'
  owned : Owned pool after node
  nonnull : node ≠ NULL
  notFree : node ∉ free'
  source : node ∈ free ∨ node = fresh
  freeSubset : ∀ cell ∈ free', cell ∈ free
  nodes : ∀ address, address ≠ node → after.nodes address = before.nodes address
  live : ∀ address ∈ before.kallocLive, address ∈ after.kallocLive
  setup : after.staticPoolSetup = before.staticPoolSetup

theorem nodeAlloc_spec (hpooled : Pooled pool state free) (hfresh : Fresh pool state fresh) :
    ∃ after node free', nodeAlloc state fresh = some (after, node) ∧
      NodeTaken pool state after free free' node fresh := by
  cases free with
  | nil =>
    have hcount := hpooled.represents.count
    refine ⟨{ state with nodes := update state.nodes fresh zero,
                         kallocLive := fresh :: state.kallocLive }, fresh, [], ?_, ?_⟩
    · simp [nodeAlloc, removeHeadFreeNodes, hcount, hfresh.nonnull, zero]
    · exact {
        pooled := hpooled.congr (by simp) rfl
        owned := by simp [Owned, zero]
        nonnull := hfresh.nonnull
        notFree := by simp
        source := .inr rfl
        freeSubset := by simp
        nodes := fun addr haddr ↦ by simp [haddr]
        live := fun addr haddr ↦ mem_cons_of_mem _ haddr
        setup := rfl }
  | cons cell rest =>
    have hcount := hpooled.represents.count
    have hhead := hpooled.represents.segment.head_eq
    have hcell : cell ≠ NULL := fun h ↦ hpooled.represents.nonnull (h ▸ mem_cons_self)
    have hdata : (state.nodes cell).data = cell := hpooled.data cell mem_cons_self
    have hnotMem : cell ∉ rest := (nodup_cons.mp hpooled.represents.nodup).1
    have hne : ∀ other ∈ rest, other ≠ cell := fun other hother h ↦ hnotMem (h ▸ hother)
    refine ⟨{ state with
        nodes := update state.nodes cell
          { state.nodes cell with staticPoolFreeNode := false, data := NULL }
        freeNodes := { state.freeNodes with
          head := (state.nodes cell).next, nodeCount := rest.length } }, cell, rest, ?_, ?_⟩
    · simp [nodeAlloc, removeHeadFreeNodes, hcount, hhead, hcell, hdata]
    · refine {
        pooled := ⟨⟨?_, ?_, rfl⟩, ?_, ?_, ?_⟩
        owned := ?_
        nonnull := hcell
        notFree := hnotMem
        source := .inl mem_cons_self
        freeSubset := fun other hother ↦ mem_cons_of_mem _ hother
        nodes := fun addr haddr ↦ by simp [haddr]
        live := fun addr haddr ↦ haddr
        setup := rfl }
      · rw [nextOf_update]
        exact hpooled.represents.segment.2.update_of_notMem hnotMem
      · exact fun h ↦ hpooled.represents.nonnull (mem_cons_of_mem _ h)
      · intro other hother
        simpa [hne other hother] using hpooled.data other (mem_cons_of_mem _ hother)
      · intro other hother
        simpa [hne other hother] using hpooled.static other (mem_cons_of_mem _ hother)
      · exact fun other hother ↦ hpooled.pool other (mem_cons_of_mem _ hother)
      · simp [Owned, hpooled.static cell mem_cons_self, hpooled.pool cell mem_cons_self]

structure NodeReturned (pool : List Ptr) (before after : NodeStore) (free free' : List Ptr)
    (node : Ptr) : Prop where
  pooled : Pooled pool after free'
  freeSubset : ∀ cell ∈ free', cell = node ∨ cell ∈ free
  nodes : ∀ address, address ≠ node → after.nodes address = before.nodes address
  live : ∀ address, address ≠ node → address ∈ before.kallocLive → address ∈ after.kallocLive
  setup : after.staticPoolSetup = before.staticPoolSetup

theorem nodeFree_spec (hpooled : Pooled pool state free) (hnonnull : node ≠ NULL)
    (hnotFree : node ∉ free) (howned : Owned pool state node) :
    ∃ after free', nodeFree state node = some after ∧
      NodeReturned pool state after free free' node := by
  by_cases hstatic : (state.nodes node).staticPoolNode = true
  · have hpool : node ∈ pool := by simpa [Owned, hstatic] using howned
    obtain ⟨nodes', freeNodes', hlink, hpooled', hnodes⟩ := linkHead_freeNodes hpooled hnonnull
      hnotFree hpool ⟨NULL, NULL, true, false⟩ rfl
    refine ⟨{ state with nodes := nodes', freeNodes := freeNodes' }, node :: free, ?_, ?_⟩
    · simp [nodeFree, hnonnull, hstatic, hlink]
    · exact {
        pooled := hpooled'
        freeSubset := fun cell hcell ↦ mem_cons.mp hcell
        nodes := hnodes
        live := fun addr _ haddr ↦ haddr
        setup := rfl }
  · have hne : ∀ cell ∈ free, cell ≠ node := fun cell hcell h ↦ hnotFree (h ▸ hcell)
    refine ⟨{ state with nodes := update state.nodes node zero,
                         kallocLive := state.kallocLive.erase node }, free, ?_, ?_⟩
    · simp [nodeFree, hnonnull, hstatic]
    · exact {
        pooled := hpooled.congr (fun cell hcell ↦ update_of_ne (hne cell hcell) ..) rfl
        freeSubset := fun cell hcell ↦ .inr hcell
        nodes := fun addr haddr ↦ by simp [haddr]
        live := fun addr hne haddr ↦ (mem_erase_of_ne hne).mpr haddr
        setup := rfl }

/-- `after` differs from `before` only in the successors of `cells`. -/
structure Relinked (before after : NodeMemory) (cells : List Ptr) : Prop where
  data : ∀ address, (after address).data = (before address).data
  static : ∀ address, (after address).staticPoolNode = (before address).staticPoolNode
  elsewhere : ∀ address, address ∉ cells → after address = before address

theorem Relinked.refl (nodes : NodeMemory) (cells : List Ptr) : Relinked nodes nodes cells :=
  ⟨fun _ ↦ rfl, fun _ ↦ rfl, fun _ _ ↦ rfl⟩

theorem Relinked.setNext {before after : NodeMemory} (hrelinked : Relinked before after cells)
    (hcell : cell ∈ cells) (next : Ptr) :
    Relinked before (update after cell { after cell with next := next }) cells where
  data address := by
    by_cases h : address = cell
    · subst h
      simpa using hrelinked.data address
    · simpa [h] using hrelinked.data address
  static address := by
    by_cases h : address = cell
    · subst h
      simpa using hrelinked.static address
    · simpa [h] using hrelinked.static address
  elsewhere address haddr := by
    have h : address ≠ cell := fun h ↦ haddr (h ▸ hcell)
    simpa [h] using hrelinked.elsewhere address haddr

theorem Relinked.join (nodes : NodeMemory) (node data next : Ptr) (cells : List Ptr) :
    Relinked (update nodes node { nodes node with data := data })
      (update nodes node { nodes node with data := data, next := next }) (node :: cells) := by
  simpa using (Relinked.refl (update nodes node { nodes node with data := data })
    (node :: cells)).setNext mem_cons_self next

section

variable (hcoh : Coherent pool state list cells free)
include hcoh

theorem Coherent.fresh_notMem (hfresh : Fresh pool state fresh) : fresh ∉ cells := by
  intro hmem
  have howned := hcoh.owned fresh hmem
  unfold Owned at howned
  split at howned
  · exact hfresh.notPool howned
  · exact hfresh.notLive howned

theorem Coherent.taken_notMem (hfresh : Fresh pool state fresh)
    (htaken : NodeTaken pool state taken free free' node fresh) : node ∉ cells := by
  rcases htaken.source with hmem | rfl
  · exact fun h ↦ hcoh.disjoint node h hmem
  · exact hcoh.fresh_notMem hfresh

theorem Coherent.release (hrelinked : Relinked state.nodes nodes' cells) (list' : SinglyLinkedList)
    {cells' : List Ptr} (hperm : cells ~ node :: cells')
    (hseg : Segment (nextOf nodes') list'.head cells' NULL)
    (hcount : list'.nodeCount = list.nodeCount - 1) (hordinary : list'.flagFreeNodes = false)
    (fresh : Ptr) :
    ∃ after, nodeFree { state with nodes := nodes' } node = some after ∧
      Becomes pool state cells free fresh after list' (contents state.nodes cells') := by
  have hnode : node ∈ cells := hperm.symm.subset mem_cons_self
  have hsubset : ∀ cell ∈ cells', cell ∈ cells := fun cell hcell ↦
    hperm.symm.subset (mem_cons_of_mem _ hcell)
  have hnotMem := (nodup_cons.mp (hperm.nodup_iff.mp hcoh.represents.nodup)).1
  have hrep : Represents nodes' list' cells' :=
    ⟨hseg, fun h ↦ hcoh.represents.nonnull (hsubset _ h),
      by simp [hcount, hcoh.represents.count, hperm.length_eq]⟩
  have hpooled : Pooled pool { state with nodes := nodes' } free :=
    hcoh.pooled.congr (fun cell hcell ↦
      hrelinked.elsewhere cell fun hmem ↦ hcoh.disjoint cell hmem hcell) rfl
  have hnonnull : node ≠ NULL := fun h ↦ hcoh.represents.nonnull (h ▸ hnode)
  have howned : Owned pool { state with nodes := nodes' } node :=
    (hcoh.owned node hnode).mono (hrelinked.static node) id
  obtain ⟨after, free', hfree, hret⟩ :=
    nodeFree_spec hpooled hnonnull (hcoh.disjoint node hnode) howned
  have hne : ∀ cell ∈ cells', cell ≠ node := fun cell hcell h ↦ hnotMem (h ▸ hcell)
  refine ⟨after, hfree, cells', free', ?_, ?_, ?_, trivial⟩
  · refine ⟨hret.pooled, hrep.congr ?_, hordinary, ?_, ?_⟩
    · intro cell hcell
      rw [hret.nodes cell (hne cell hcell)]
    · intro cell hcell
      refine (hcoh.owned cell (hsubset cell hcell)).mono ?_
        (hret.live cell (hne cell hcell))
      rw [hret.nodes cell (hne cell hcell)]
      exact hrelinked.static cell
    · intro cell hcell hmem
      rcases hret.freeSubset cell hmem with rfl | hmem
      · exact hnotMem hcell
      · exact hcoh.disjoint cell (hsubset cell hcell) hmem
  · refine contents_congr fun cell hcell ↦ ?_
    rw [hret.nodes cell (hne cell hcell)]
    exact hrelinked.data cell
  · refine ⟨?_, ?_, fun cell hcell ↦ .inl (hsubset cell hcell), ?_, hret.setup⟩
    · intro addr haddr _ _
      have h : addr ≠ node := fun h ↦ haddr (h ▸ hnode)
      rw [hret.nodes addr h]
      exact hrelinked.elsewhere addr haddr
    · intro addr haddr hlive
      exact hret.live addr (fun h ↦ haddr (h ▸ hnode)) hlive
    · intro cell hcell
      rcases hret.freeSubset cell hcell with rfl | hmem
      · exact .inl hnode
      · exact .inr hmem

/-- The end of every insertion: `node` was taken for the list, its data and the successors of the
list's nodes were written, and the result is well linked. -/
theorem Coherent.adopt (hfresh : Fresh pool state fresh)
    (htaken : NodeTaken pool state taken free free' node fresh) {data : Ptr}
    (hrelinked : Relinked (update taken.nodes node { taken.nodes node with data := data })
      nodes' (node :: cells)) {list' : SinglyLinkedList} {cells' : List Ptr}
    (hrep : Represents nodes' list' cells') (hordinary : list'.flagFreeNodes = false)
    (hsubset : ∀ cell ∈ cells', cell = node ∨ cell ∈ cells) :
    Coherent pool { taken with nodes := nodes' } list' cells' free' ∧
      (∀ cell ∈ cells, (nodes' cell).data = (state.nodes cell).data) ∧
      (nodes' node).data = data ∧
      Confined state { taken with nodes := nodes' } cells free cells' free' fresh := by
  have hnotMem : node ∉ cells := hcoh.taken_notMem hfresh htaken
  have hne : ∀ cell ∈ cells, cell ≠ node := fun cell hcell h ↦ hnotMem (h ▸ hcell)
  have hfreeNe : ∀ cell ∈ free', cell ≠ node := fun cell hcell h ↦ htaken.notFree (h ▸ hcell)
  have hdisj : ∀ cell ∈ cells, cell ∉ free' := fun cell hcell hmem ↦
    hcoh.disjoint cell hcell (htaken.freeSubset cell hmem)
  refine ⟨⟨?_, hrep, hordinary, ?_, ?_⟩, ?_, ?_, ?_⟩
  · refine htaken.pooled.congr (fun cell hcell ↦ ?_) rfl
    change nodes' cell = _
    rw [hrelinked.elsewhere cell]
    · simp [hfreeNe cell hcell]
    · simp only [mem_cons, not_or]
      exact ⟨hfreeNe cell hcell, fun h ↦ hdisj cell h hcell⟩
  · intro cell hcell
    rcases hsubset cell hcell with rfl | hmem
    · refine htaken.owned.mono ?_ id
      simpa using hrelinked.static cell
    · refine (hcoh.owned cell hmem).mono ?_ (htaken.live cell)
      have h := hrelinked.static cell
      simp only [update_of_ne (hne cell hmem), htaken.nodes cell (hne cell hmem)] at h
      exact h
  · intro cell hcell
    rcases hsubset cell hcell with rfl | hmem
    · exact htaken.notFree
    · exact hdisj cell hmem
  · intro cell hcell
    have h := hrelinked.data cell
    simp only [update_of_ne (hne cell hcell), htaken.nodes cell (hne cell hcell)] at h
    exact h
  · simpa using hrelinked.data node
  · refine ⟨?_, fun addr _ ↦ htaken.live addr, ?_, fun cell hcell ↦
      .inr (htaken.freeSubset cell hcell), htaken.setup⟩
    · intro addr haddr hnotFree hnotFresh
      have h : addr ≠ node := by
        rintro rfl
        rcases htaken.source with hmem | rfl
        · exact hnotFree hmem
        · exact hnotFresh rfl
      change nodes' addr = _
      rw [hrelinked.elsewhere addr, update_of_ne h, htaken.nodes addr h]
      simp only [mem_cons, not_or]
      exact ⟨h, haddr⟩
    · intro cell hcell
      rcases hsubset cell hcell with rfl | hmem
      · exact .inr htaken.source
      · exact .inl hmem

end

end DionysOS.DataStructures.SinglyLinkedList
