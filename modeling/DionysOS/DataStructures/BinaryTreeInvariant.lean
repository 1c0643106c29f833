import DionysOS.DataStructures.BinaryTree
import DionysOS.DataStructures.SinglyLinkedListFamily
import DionysOS.Foundation.LinkedTree
import Mathlib.Order.Nat

/-!
# The representation invariant of the binary tree

A tree in memory is a shape that the links spell, ordered by the stored keys, whose nodes are in
use in the static pool or came from `kmalloc`, and whose buckets form a family of nonempty lists.
`Holds` relates such a tree to a multimap from keys to the data under them, oldest first.

The three loops of the code descend alike, so each is specified by the search in the shape and by
what the code does where the search ends.
-/

namespace DionysOS.DataStructures.BinaryTree

open Foundation SearchTree LinkedTree Function Option
open SinglyLinkedList (contents Family)

def linksOf (nodes : NodeMemory) : Links Ptr where
  left address := (nodes address).left
  right address := (nodes address).right
  parent address := (nodes address).parent

def keyOf (nodes : NodeMemory) (address : Ptr) : ℕ := (nodes address).key

/-- The links, the order of the keys and the count fit the shape. -/
structure Represents (nodes : NodeMemory) (tree : Tree) (shape : BinaryTree Ptr) : Prop where
  linked : Linked (linksOf nodes) NULL NULL tree.root shape
  ordered : Ordered (keyOf nodes) shape
  count : tree.nodeCount = shape.numNodes

/-- A node in use comes from the static pool or from `kmalloc`, as its flag says. -/
def Owned (pool : List Ptr) (store : Store) (address : Ptr) : Prop :=
  if (store.nodes address).staticPool then address ∈ pool ∧ (store.nodes address).free = false
  else address ∈ store.live

/-- The static pool and the origin of the tree's nodes. `node_alloc` relies on free nodes having
no children. -/
structure Pooled (pool : List Ptr) (store : Store) (shape : BinaryTree Ptr) : Prop where
  nonnull : NULL ∉ pool
  static : ∀ address ∈ pool, (store.nodes address).staticPool = true
  unlinked : ∀ address ∈ pool, (store.nodes address).free = true →
    (store.nodes address).left = NULL ∧ (store.nodes address).right = NULL
  owned : ∀ address ∈ cells shape, Owned pool store address

/-- The buckets of the tree's nodes, with the list nodes they are made of. -/
structure Buckets (pool : List Ptr) (store : Store) (shape : BinaryTree Ptr)
    (bucket : Ptr → List Ptr) (free : List Ptr) : Prop where
  family : Family pool store.lists (· ∈ cells shape) (fun address ↦ (store.nodes address).data)
    bucket free
  nonempty : ∀ address ∈ cells shape, bucket address ≠ []

/-- The invariant. Before the first insertion the list module need not be set up. -/
structure Coherent (pools : Pools) (store : Store) (tree : Tree) (shape : BinaryTree Ptr)
    (bucket : Ptr → List Ptr) : Prop where
  represents : Represents store.nodes tree shape
  pooled : Pooled pools.tree store shape
  ready : SinglyLinkedList.Ready pools.lists store.lists
  setup : shape ≠ .nil → store.lists.staticPoolSetup = true
  buckets : store.lists.staticPoolSetup = true → ∃ free, Buckets pools.lists store shape bucket free

abbrev Multimap := ℕ → List Ptr

structure Entries (store : Store) (shape : BinaryTree Ptr) (bucket : Ptr → List Ptr)
    (multimap : Multimap) : Prop where
  present : ∀ address ∈ cells shape,
    multimap (keyOf store.nodes address) = contents store.lists.nodes (bucket address)
  absent : ∀ key, (∀ address ∈ cells shape, keyOf store.nodes address ≠ key) → multimap key = []

/-- What the allocator promises about the addresses it returns. -/
@[mk_iff]
structure Fresh (pools : Pools) (store : Store) (allocation : Allocation) : Prop where
  nonnull : allocation.treeNode ≠ NULL
  notLive : allocation.treeNode ∉ store.live
  notPool : allocation.treeNode ∉ pools.tree
  listNode : SinglyLinkedList.Fresh pools.lists store.lists allocation.listNode

instance (pools : Pools) (store : Store) (allocation : Allocation) :
    Decidable (Fresh pools store allocation) :=
  decidable_of_iff' _ (fresh_iff pools store allocation)

variable {pools : Pools} {store : Store} {tree : Tree} {shape : BinaryTree Ptr}
  {bucket : Ptr → List Ptr} {alloc : Allocation} {key : ℕ} {cur : Ptr}

variable {nodes : NodeMemory} {pool : List Ptr} {fuel : ℕ}

section

variable (hrep : Represents nodes tree shape)
include hrep

theorem Represents.nodup :
    (cells shape).Nodup :=
  hrep.ordered.nodup

theorem Represents.apart (hcur : current ∈ cells shape) : Apart (linksOf nodes) NULL current :=
  hrep.linked.apart hrep.nodup
    (fun h ↦ hrep.linked.ne_null NULL h rfl) hcur

theorem Represents.congr {nodes' : NodeMemory}
    (hlinks : ∀ addr ∈ cells shape, SameAt (linksOf nodes) (linksOf nodes') addr)
    (hkeys : ∀ addr ∈ cells shape, keyOf nodes' addr = keyOf nodes addr) :
    Represents nodes' tree shape :=
  ⟨hrep.linked.congr hlinks, hrep.ordered.congr hkeys, hrep.count⟩

end

theorem Coherent.setup_of_mem (hcoh : Coherent pools store tree shape bucket)
    (hcur : cur ∈ cells shape) : store.lists.staticPoolSetup = true := by
  apply hcoh.setup
  rintro rfl
  cases hcur

theorem Pooled.fresh_notMem (hpooled : Pooled pools.tree store shape)
    (hfresh : Fresh pools store alloc) : alloc.treeNode ∉ cells shape := by
  intro hmem
  have howned := hpooled.owned _ hmem
  unfold Owned at howned
  split at howned
  · exact hfresh.notPool howned.1
  · exact hfresh.notLive howned

theorem Pooled.not_owned (hpooled : Pooled pool store shape)
    (hcur : current ∈ pool) (hfree : (store.nodes current).free = true) :
    ¬ Owned pool store current := by
  intro howned
  unfold Owned at howned
  rw [if_pos (hpooled.static current hcur), hfree] at howned
  cases howned.2

theorem Pooled.relink (hpooled : Pooled pool store shape) {store' : Store}
    {shape' : BinaryTree Ptr} (howned : ∀ addr ∈ cells shape', Owned pool store addr)
    (hflags : ∀ addr, (store'.nodes addr).staticPool = (store.nodes addr).staticPool ∧
      (store'.nodes addr).free = (store.nodes addr).free)
    (hlinks : ∀ addr ∉ cells shape', (store'.nodes addr).left = (store.nodes addr).left ∧
      (store'.nodes addr).right = (store.nodes addr).right)
    (hlive : store'.live = store.live) : Pooled pool store' shape' := by
  refine ⟨hpooled.nonnull, ?_, ?_, ?_⟩
  · intro addr haddr
    exact (hflags addr).1.trans (hpooled.static addr haddr)
  · intro addr haddr hfree
    rw [(hflags addr).2] at hfree
    have hsame := hlinks addr fun hmem ↦
      hpooled.not_owned haddr hfree (howned addr hmem)
    rw [hsame.1, hsame.2]
    exact hpooled.unlinked addr haddr hfree
  · intro addr haddr
    have h := howned addr haddr
    unfold Owned at h ⊢
    rwa [(hflags addr).1, (hflags addr).2, hlive]

theorem field_update {Field : Type} (field : Node → Field) {node : Node}
    (hfield : field node = field (nodes cur)) (addr : Ptr) :
    field (update nodes cur node addr) = field (nodes addr) := by
  rw [apply_update (fun _ ↦ field), hfield, update_eq_self]

theorem lookupLoop_eq (bound : ℕ) (key remove : ℕ) (hrep : Represents store.nodes tree shape)
    (hshape : shape ≠ .nil) (hfuel : shape.numNodes ≤ fuel) :
    lookupLoop bound key remove fuel store tree tree.root =
      (search (keyOf store.nodes) key shape).elim (some (store, tree, NULL))
        (lookupFound bound key remove store tree) := by
  refine hrep.linked.descend (lookupLoop bound key remove · store tree ·)
    (lookupFound bound key remove store tree) (fun _ ↦ some (store, tree, NULL)) ?_ hshape hfuel
  intro fuel current hcur
  have hapart := hrep.apart hcur
  -- No node of the tree is its own child, so the code's guards against that do nothing.
  have hleft : (store.nodes current).left ≠ current := hapart.left
  have hright : (store.nodes current).right ≠ current := hapart.right
  rw [lookupLoop, load_of_ne (hrep.linked.ne_null current hcur)]
  simp only [bind_eq_bind, bind_some, if_neg hleft, if_neg hright]
  rfl

theorem removeLoop_eq (bound : ℕ) (key : ℕ) (addr : Ptr)
    (hrep : Represents store.nodes tree shape) (hshape : shape ≠ .nil)
    (hfuel : shape.numNodes ≤ fuel) :
    removeLoop bound key addr fuel store tree tree.root =
      (search (keyOf store.nodes) key shape).elim (some (store, tree, VALUE_NOT_FOUND))
        (removeFound bound store tree addr) := by
  refine hrep.linked.descend (removeLoop bound key addr · store tree ·)
    (removeFound bound store tree addr) (fun _ ↦ some (store, tree, VALUE_NOT_FOUND)) ?_
    hshape hfuel
  intro fuel cur hcur
  rw [removeLoop, load_of_ne (hrep.linked.ne_null cur hcur)]
  rfl

theorem insertLoop_eq (pools : Pools) (data : Ptr) (key : ℕ) (alloc : Allocation)
    (hrep : Represents store.nodes tree shape) (hshape : shape ≠ .nil)
    (hfuel : shape.numNodes ≤ fuel) :
    insertLoop pools data key alloc fuel store tree tree.root =
      (search (keyOf store.nodes) key shape).elim
        (insertUnder pools store tree data key alloc
          (attachPoint (keyOf store.nodes) key NULL shape)
          (key < keyOf store.nodes (attachPoint (keyOf store.nodes) key NULL shape)))
        (insertFound store tree data alloc) := by
  refine hrep.linked.descend (insertLoop pools data key alloc · store tree ·)
    (insertFound store tree data alloc) (fun cur ↦
      insertUnder pools store tree data key alloc cur (key < keyOf store.nodes cur))
    ?_ hshape hfuel
  intro fuel cur hcur
  rw [insertLoop, load_of_ne (hrep.linked.ne_null cur hcur)]
  simp only [bind_eq_bind, bind_some, linksOf, keyOf]
  by_cases hlt : key < (store.nodes cur).key
  · simp [hlt]
  · simp [hlt]

end DionysOS.DataStructures.BinaryTree
