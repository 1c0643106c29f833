import DionysOS.DataStructures.BinaryTreeRefinement
import DionysOS.Foundation.TreeTraversal

/-!
# Trees built by insertions

A tree that is only inserted into keeps a usable tail in every bucket, so every insertion returns.
The nodes are then the keys inserted so far, each with its data in the order of insertion, and
`for_each_node_in_tree` visits them in preorder on a stack that fits into `node_count` entries.

A key is a 64-bit number for the caller but has 32 bits in a node. A key that does not fit is
stored under its low bits, and no lookup finds it again. `insertions_answered_iff` says that this,
and a null pointer as the first data under a key, are all that can go wrong.
-/

namespace DionysOS.DataStructures.BinaryTree

open Foundation SearchTree LinkedTree PartialMachine List Function
open SinglyLinkedList (TailLast)

variable {pools : Pools} {store : Store} {tree : Tree} {shape : BinaryTree Ptr}
  {multimap : Multimap} {key : ℕ} {fuel : ℕ}

theorem pushChild_eq {capacity : ℕ} {stack : List Ptr} {child : Ptr}
    (hcapacity : (pushLink NULL child stack).length ≤ capacity)
    (htop : (pushLink NULL child stack).length ≤ 2 ^ 31) :
    pushChild capacity stack child = some (pushLink NULL child stack) := by
  unfold pushChild pushLink at *
  by_cases hchild : child = NULL
  · rw [if_pos hchild, if_pos hchild]
  · rw [if_neg hchild] at hcapacity htop ⊢
    rw [if_neg hchild, push, if_pos ⟨hcapacity, htop⟩]

variable {nodes : NodeMemory} {alloc : Allocation} {data cur value : Ptr} {store' : Store}
  {status remove budget : ℕ} {tree' : Tree} {machine : Machine}

/-- The loop visits what is stacked. The stack holds at most one tree more than nodes were
visited, and no more trees than nodes are left, so it never holds more than half of the nodes. -/
theorem visitLoop_eq {capacity : ℕ} (hsmall : capacity ≤ 2 ^ 32)
    {stack order : List Ptr} (hstacked : Stacked (linksOf nodes) NULL stack order)
    {visited : ℕ} (hcapacity : visited + order.length = capacity)
    (hstack : stack.length ≤ visited + 1) (hfuel : order.length < fuel) :
    visitLoop nodes capacity fuel stack = some order := by
  induction fuel generalizing stack order visited with
  | zero => omega
  | succ fuel ih =>
    cases stack with
    | nil =>
      cases hstacked
      rfl
    | cons cur stack =>
      obtain ⟨hcur, rest, rfl, hrest⟩ := hstacked.visit
      have hright := length_pushLink_le NULL (nodes cur).right stack
      have hleft := length_pushLink_le NULL (nodes cur).left
        (pushLink NULL (nodes cur).right stack)
      have hgrow := le_length_pushLink NULL (nodes cur).left
        (pushLink NULL (nodes cur).right stack)
      have hwaiting : (pushLink NULL (nodes cur).left
          (pushLink NULL (nodes cur).right stack)).length ≤ rest.length := hrest.length_le
      rw [length_cons] at hcapacity hstack hfuel
      have hpushRight := @pushChild_eq capacity stack (nodes cur).right (by omega) (by omega)
      have hpushLeft := @pushChild_eq capacity _ (nodes cur).left
        (hwaiting.trans (by omega)) (by omega)
      have hvisit := ih hrest (show visited + 1 + rest.length = capacity by omega)
        (by exact hleft.trans (by omega)) (by omega)
      change visitLoop nodes capacity fuel (pushLink NULL (nodes cur).left
        (pushLink NULL (nodes cur).right stack)) = some rest at hvisit
      rw [visitLoop, if_neg hcur]
      simp only [hpushRight, hpushLeft, hvisit, Option.bind_eq_bind, Option.bind_some]
      rfl

theorem forEachNodeInTree_spec (hrep : Represents nodes tree shape)
    (hsmall : tree.nodeCount ≤ 2 ^ 32) (hfuel : tree.nodeCount < fuel) :
    forEachNodeInTree fuel nodes tree true = some (preorder shape) := by
  have hlen : (preorder shape).length = tree.nodeCount := by
    rw [hrep.count, (preorder_perm_cells shape).length_eq, length_cells]
  unfold forEachNodeInTree
  by_cases hroot : tree.root = NULL
  · rw [if_pos hroot, hrep.linked.link_eq_null.mp hroot]
    rfl
  · have hstacked : Stacked (linksOf nodes) NULL [tree.root] (preorder shape ++ []) :=
      Stacked.nil.push hrep.linked hroot
    have hpos := hstacked.length_le
    rw [append_nil] at hstacked hpos
    rw [hlen] at hpos
    have hpush : push tree.nodeCount [] tree.root = some [tree.root] :=
      if_pos ⟨hpos, by decide⟩
    rw [if_neg hroot, if_neg Bool.noConfusion, hpush, Option.bind_eq_bind, Option.bind_some]
    exact visitLoop_eq hsmall hstacked (show 0 + _ = _ by omega) le_rfl (by omega)

/-- Every stored key is one of a 32-bit field. -/
def KeysFit (nodes : NodeMemory) : Prop := ∀ address, (nodes address).key < 2 ^ 32

theorem KeysFit.update (hfit : KeysFit nodes) (addr : Ptr) {node : Node}
    (hnode : node.key < 2 ^ 32) : KeysFit (update nodes addr node) := by
  intro other
  rw [update_apply]
  split
  · exact hnode
  · exact hfit other

theorem KeysFit.modify {nodes' : NodeMemory} {addr : Ptr} {change : Node → Node}
    (hmodify : modify nodes addr change = some nodes') (hfit : KeysFit nodes)
    (hchange : (change (nodes addr)).key < 2 ^ 32) : KeysFit nodes' := by
  unfold BinaryTree.modify at hmodify
  split at hmodify
  · cases hmodify
  · cases hmodify
    exact hfit.update addr hchange

section

variable (hfit : KeysFit store.nodes)
include hfit

theorem KeysFit.nodeAlloc (pool : List Ptr) (fresh : Ptr) :
    KeysFit (nodeAlloc pool store fresh).1.nodes := by
  have hzero : KeysFit (Function.update store.nodes fresh Node.zero) :=
    hfit.update fresh (by decide)
  unfold BinaryTree.nodeAlloc
  split
  · exact hzero
  · split
    · exact hfit.update _ (hfit _)
    · exact hzero

theorem KeysFit.newNode {new : Ptr}
    (hnew : newNode pools store data key alloc = some (store', new)) :
    KeysFit store'.nodes := by
  obtain ⟨⟨lists, bucket⟩, -, hnew⟩ := Option.bind_eq_some_iff.mp hnew
  obtain ⟨⟨lists, bucket⟩, -, hnew⟩ := Option.bind_eq_some_iff.mp hnew
  obtain ⟨nodes, hmodify, hnew⟩ := Option.bind_eq_some_iff.mp hnew
  cases hnew
  exact (hfit.nodeAlloc pools.tree alloc.treeNode).modify hmodify
    (Nat.mod_lt _ (by decide))

theorem KeysFit.insertFound
    (hinsert : insertFound store tree data alloc cur = some (store', tree', status)) :
    KeysFit store'.nodes := by
  obtain ⟨node, -, hinsert⟩ := Option.bind_eq_some_iff.mp hinsert
  obtain ⟨⟨lists, bucket⟩, -, hinsert⟩ := Option.bind_eq_some_iff.mp hinsert
  obtain ⟨nodes, hmodify, hinsert⟩ := Option.bind_eq_some_iff.mp hinsert
  cases hinsert
  exact hfit.modify hmodify (hfit cur)

theorem KeysFit.insertUnder {toLeft : Bool}
    (hinsert : insertUnder pools store tree data key alloc cur toLeft =
      some (store', tree', status)) : KeysFit store'.nodes := by
  obtain ⟨⟨prepared, new⟩, hnew, hinsert⟩ := Option.bind_eq_some_iff.mp hinsert
  obtain ⟨hung, hhang, hinsert⟩ := Option.bind_eq_some_iff.mp hinsert
  obtain ⟨nodes, hpar, hinsert⟩ := Option.bind_eq_some_iff.mp hinsert
  cases hinsert
  have hprep := hfit.newNode hnew
  have hhung : KeysFit hung := by
    apply hprep.modify hhang
    cases toLeft <;> exact hprep cur
  exact hhung.modify hpar (hhung new)

theorem KeysFit.insertLoop (hinsert : insertLoop pools data key alloc fuel store tree cur =
      some (store', tree', status)) : KeysFit store'.nodes := by
  induction fuel generalizing cur with
  | zero => cases hinsert
  | succ fuel ih =>
    obtain ⟨node, -, hinsert⟩ := Option.bind_eq_some_iff.mp hinsert
    split at hinsert
    · exact hfit.insertFound hinsert
    split at hinsert
    · split at hinsert
      · exact hfit.insertUnder hinsert
      · exact ih hinsert
    · split at hinsert
      · exact hfit.insertUnder hinsert
      · exact ih hinsert

theorem KeysFit.insertBinaryTree
    (hinsert : insertBinaryTree fuel pools store tree data key alloc =
      some (store', tree', status)) : KeysFit store'.nodes := by
  unfold BinaryTree.insertBinaryTree at hinsert
  split at hinsert
  · obtain ⟨⟨prepared, new⟩, hnew, hinsert⟩ := Option.bind_eq_some_iff.mp hinsert
    obtain ⟨nodes, hpar, hinsert⟩ := Option.bind_eq_some_iff.mp hinsert
    cases hinsert
    have hprep := hfit.newNode hnew
    exact hprep.modify hpar (hprep new)
  · exact hfit.insertLoop hinsert

theorem lookupLoop_of_large {bound : ℕ} (hkey : 2 ^ 32 ≤ key)
    (hlookup : lookupLoop bound key remove fuel store tree cur = some (store', tree', value)) :
    value = NULL := by
  induction fuel generalizing cur with
  | zero => cases hlookup
  | succ fuel ih =>
    obtain ⟨node, hload, hlookup⟩ := Option.bind_eq_some_iff.mp hlookup
    have hstored : node.key < 2 ^ 32 := by
      unfold load at hload
      split at hload
      · cases hload
      · cases hload
        exact hfit cur
    rw [if_neg (by omega), if_neg (by omega)] at hlookup
    split at hlookup
    · cases hlookup
      rfl
    split at hlookup
    · cases hlookup
      rfl
    · exact ih hlookup

theorem lookupTree_of_large (hkey : 2 ^ 32 ≤ key)
    (hlookup : lookupTree fuel store tree key remove = some (store', tree', value)) :
    value = NULL := by
  unfold lookupTree at hlookup
  split at hlookup
  · cases hlookup
    rfl
  · exact lookupLoop_of_large hfit hkey hlookup

end

/-- `insert_binary_tree(tree, data, key)`, with what the allocator would return. -/
structure Insertion where
  data : Ptr
  key : ℕ
  allocation : Allocation
deriving DecidableEq, Repr

def insertStep (fuel : ℕ) (pools : Pools) (machine : Machine) (insertion : Insertion) :
    Option (Machine × ℕ) :=
  step fuel pools machine (.insert insertion.data insertion.key insertion.allocation)

/-- The addresses that the allocator returns are unused. -/
def Supplied (pools : Pools) (machine : Machine) (insertion : Insertion) : Prop :=
  Fresh pools machine.1 insertion.allocation

def insertedUnder (insertions : List Insertion) (key : ℕ) : List Ptr :=
  (insertions.filter fun insertion ↦ insertion.key = key).map Insertion.data

theorem insertedUnder_cons (insertion : Insertion) (insertions : List Insertion) (key : ℕ) :
    insertedUnder (insertion :: insertions) key =
      (if insertion.key = key then [insertion.data] else []) ++ insertedUnder insertions key := by
  unfold insertedUnder
  by_cases h : insertion.key = key
  · simp [h]
  · simp [h]

variable {insertions : List Insertion}

theorem insertedUnder_ne_nil :
    insertedUnder insertions key ≠ [] ↔ ∃ insertion ∈ insertions, insertion.key = key := by
  simp [insertedUnder, filter_eq_nil_iff]

/-- The tree holds the multimap, no bucket has a stale tail, and `budget` more insertions are
within the fuel. -/
def Grown (pools : Pools) (fuel budget : ℕ) (machine : Machine) (multimap : Multimap) : Prop :=
  HoldsWith TailLast pools machine.1 machine.2 multimap ∧ machine.2.nodeCount + budget < fuel

theorem HoldsWith.tailUsable (hholds : HoldsWith TailLast pools store tree multimap) {node : Ptr}
    (hlocates : Locates store tree key node) :
    SinglyLinkedList.TailUsable (store.lists, (store.nodes node).data) := by
  obtain ⟨shape, bucket, hcoh, -, htail⟩ := hholds
  obtain ⟨shape', hlinked, hsearch⟩ := hlocates
  obtain rfl := hcoh.represents.linked.unique hlinked
  have hnode := (search_mem hsearch).1
  obtain ⟨free, hbuckets⟩ := hcoh.exists_buckets hnode
  exact ⟨bucket node, (hbuckets.family.coherent node hnode).represents, htail node hnode⟩

variable {insertion : Insertion}

theorem insertStep_spec (hgrown : Grown pools fuel (budget + 1) machine multimap)
    (hsupplied : Supplied pools machine insertion) (hkey : insertion.key < 2 ^ 32) :
    ∃ next, insertStep fuel pools machine insertion = some (next, KERN_SUCCESS) ∧
      Grown pools fuel budget next (update multimap insertion.key
        (multimap insertion.key ++ [insertion.data])) := by
  obtain ⟨store, tree⟩ := machine
  obtain ⟨hholds, hcount⟩ := hgrown
  change tree.nodeCount + (budget + 1) < fuel at hcount
  obtain ⟨store', tree', hinsert, hafter, hle⟩ := insertBinaryTree_with (fun _ _ h ↦ h) hholds
    hsupplied hkey (show tree.nodeCount ≤ fuel by omega) (fun _ ↦ hholds.tailUsable) insertion.data
  change tree'.nodeCount ≤ tree.nodeCount + 1 at hle
  refine ⟨(store', tree'), by simp [insertStep, step, hinsert], hafter, ?_⟩
  change tree'.nodeCount + budget < fuel
  omega

theorem run_insertStep (insertions : List Insertion)
    (hkeys : ∀ insertion ∈ insertions, insertion.key < 2 ^ 32)
    (hgrown : Grown pools fuel (insertions.length + budget) machine multimap)
    (hsupplied : Guarded (insertStep fuel pools) (Supplied pools) machine insertions) :
    ∃ final outs, run (insertStep fuel pools) machine insertions = some (final, outs) ∧
      Grown pools fuel budget final fun key ↦ multimap key ++ insertedUnder insertions key := by
  induction insertions generalizing machine multimap with
  | nil =>
    refine ⟨machine, [], rfl, ?_⟩
    simpa [insertedUnder] using hgrown
  | cons insertion insertions ih =>
    rw [length_cons, add_right_comm] at hgrown
    obtain ⟨next, hstep, hnext⟩ := insertStep_spec hgrown hsupplied.1
      (hkeys insertion mem_cons_self)
    obtain ⟨final, outs, hrun, hfinal⟩ := ih (fun other h ↦ hkeys other (mem_cons_of_mem _ h))
      hnext (hsupplied.2 next _ hstep)
    refine ⟨final, _, run_cons_of_step hstep hrun, ?_⟩
    convert hfinal using 2 with key
    rw [insertedUnder_cons, update_apply]
    by_cases h : key = insertion.key
    · simp [h]
    · simp [h, Ne.symm h]

theorem run_insertStep_keysFit (insertions : List Insertion) {final : Machine}
    {outs : List ℕ} (hfit : KeysFit machine.1.nodes)
    (hrun : run (insertStep fuel pools) machine insertions = some (final, outs)) :
    KeysFit final.1.nodes := by
  induction insertions generalizing machine outs with
  | nil =>
    cases hrun
    exact hfit
  | cons insertion insertions ih =>
    obtain ⟨next, out, rest, hstep, hrest, -⟩ := run_cons_eq_some hrun
    obtain ⟨⟨store, tree, status⟩, hinsert, hnext⟩ := Option.map_eq_some_iff.mp hstep
    cases hnext
    exact ih (hfit.insertBinaryTree hinsert) hrest

/-- What a tree built by the insertions should answer: a lookup the first data under its key, and
`NULL` exactly for a key that was never inserted; a traversal one node for each key, in
preorder. -/
structure Answers (fuel : ℕ) (machine : Machine) (insertions : List Insertion) : Prop where
  lookup : ∀ key, ∃ value, lookupTree fuel machine.1 machine.2 key 0 =
      some (machine.1, machine.2, value) ∧
    (∀ first ∈ (insertedUnder insertions key).head?, value = first) ∧
    (value = NULL ↔ ¬ ∃ insertion ∈ insertions, insertion.key = key)
  traversal : ∃ shape, Linked (linksOf machine.1.nodes) NULL NULL machine.2.root shape ∧
    forEachNodeInTree fuel machine.1.nodes machine.2 true = some (preorder shape) ∧
    ((preorder shape).map (keyOf machine.1.nodes)).Nodup ∧
    ∀ key, key ∈ (preorder shape).map (keyOf machine.1.nodes) ↔
      ∃ insertion ∈ insertions, insertion.key = key

theorem Coherent.mem_keys_iff {bucket : Ptr → List Ptr}
    (hcoh : Coherent pools store tree shape bucket)
    (hentries : Entries store shape bucket multimap) :
    key ∈ (preorder shape).map (keyOf store.nodes) ↔ multimap key ≠ [] := by
  rw [((preorder_perm_cells shape).map _).mem_iff, mem_map]
  constructor
  · rintro ⟨node, hnode, rfl⟩
    obtain ⟨-, hfirst⟩ := hcoh.bucket_head hentries hnode
    intro hnil
    rw [hnil] at hfirst
    cases hfirst
  · intro hne
    by_contra hnone
    exact hne (hentries.absent key fun node hnode hkey ↦ hnone ⟨node, hnode, hkey⟩)

theorem Represents.nodup_keys (hrep : Represents nodes tree shape) :
    ((preorder shape).map (keyOf nodes)).Nodup := by
  rw [((preorder_perm_cells shape).map _).nodup_iff]
  exact hrep.nodup.map_on fun one hone two htwo ↦
    hrep.ordered.eq_of_key_eq hone htwo

theorem Represents.nodeCount_le (hrep : Represents nodes tree shape)
    (hfit : KeysFit nodes) : tree.nodeCount ≤ 2 ^ 32 := by
  have hsubset : (preorder shape).map (keyOf nodes) ⊆ range (2 ^ 32) := by
    intro key hkey
    obtain ⟨node, -, rfl⟩ := mem_map.mp hkey
    exact mem_range.mpr (hfit node)
  have hle := (hrep.nodup_keys.subperm hsubset).length_le
  rwa [length_map, (preorder_perm_cells shape).length_eq, length_cells, length_range,
    ← hrep.count] at hle

theorem Grown.answers (hgrown : Grown pools fuel budget machine (insertedUnder insertions))
    (hfit : KeysFit machine.1.nodes)
    (hdata : ∀ key, ∀ first ∈ (insertedUnder insertions key).head?, first ≠ NULL) :
    Answers fuel machine insertions := by
  obtain ⟨hholds, hcount⟩ := hgrown
  have hfuel : machine.2.nodeCount < fuel := by omega
  constructor
  · intro key
    refine ⟨_, lookupTree_spec hholds.holds hfuel key, ?_, ?_⟩
    · intro first hfirst
      rw [headD_eq_head?_getD, hfirst, Option.getD_some]
    · rw [← insertedUnder_ne_nil, not_not]
      cases hlist : insertedUnder insertions key with
      | nil => simp
      | cons first rest =>
        have := hdata key first (by rw [hlist]; rfl)
        simpa using this
  · obtain ⟨shape, bucket, hcoh, hentries, -⟩ := hholds
    have hrep := hcoh.represents
    refine ⟨shape, hrep.linked,
      forEachNodeInTree_spec hrep (hrep.nodeCount_le hfit) hfuel,
      hrep.nodup_keys, fun key ↦ ?_⟩
    rw [hcoh.mem_keys_iff hentries, insertedUnder_ne_nil]

theorem initTree_grown (hready : Ready pools store) (hfuel : budget < fuel) :
    Grown pools fuel budget (initTree pools.tree store) fun _ ↦ [] := by
  obtain ⟨shape, bucket, hcoh, hentries⟩ := initTree_spec hready
  have hshape : shape = .nil := hcoh.represents.linked.link_eq_null.mp rfl
  refine ⟨⟨shape, bucket, hcoh, hentries, ?_⟩, ?_⟩
  · simp [hshape]
  · simpa [initTree] using hfuel

theorem KeysFit.initTree (hfit : KeysFit store.nodes) (pool : List Ptr) :
    KeysFit (initTree pool store).1.nodes := by
  intro addr
  unfold BinaryTree.initTree
  by_cases hinit : store.staticPoolInit = true
  · simpa [hinit] using hfit addr
  · by_cases hpool : addr ∈ pool
    · simpa [hinit, hpool] using hfit addr
    · simpa [hinit, hpool] using hfit addr

/-- **Insertion, lookup and traversal.** A tree built by insertions answers as it should exactly
if every key fits into 32 bits and the first data under each key is not `NULL`. -/
theorem insertions_answered_iff (pools : Pools) (store : Store) (hready : Ready pools store)
    (hfit : KeysFit store.nodes) (fuel : ℕ) (insertions : List Insertion)
    (hfuel : insertions.length < fuel)
    (hsupplied : Guarded (insertStep fuel pools) (Supplied pools) (initTree pools.tree store)
      insertions) :
    (∃ final outs, run (insertStep fuel pools) (initTree pools.tree store) insertions =
        some (final, outs) ∧ Answers fuel final insertions) ↔
      (∀ insertion ∈ insertions, insertion.key < 2 ^ 32) ∧
        ∀ key, ∀ first ∈ (insertedUnder insertions key).head?, first ≠ NULL := by
  constructor
  · rintro ⟨final, outs, hrun, hanswers⟩
    have hfinal := run_insertStep_keysFit insertions (hfit.initTree pools.tree) hrun
    constructor
    · intro insertion hinsertion
      obtain ⟨value, hlookup, -, hnull⟩ := hanswers.lookup insertion.key
      by_contra hlarge
      exact hnull.mp (lookupTree_of_large hfinal (not_lt.mp hlarge) hlookup)
        ⟨insertion, hinsertion, rfl⟩
    · intro key first hfirst hzero
      obtain ⟨value, -, hvalue, hnull⟩ := hanswers.lookup key
      refine hnull.mp ((hvalue first hfirst).trans hzero) (insertedUnder_ne_nil.mp ?_)
      intro hnil
      rw [hnil] at hfirst
      cases hfirst
  · rintro ⟨hkeys, hdata⟩
    have hempty : Grown pools fuel (insertions.length + 0) (initTree pools.tree store) _ :=
      initTree_grown hready hfuel
    obtain ⟨final, outs, hrun, hgrown⟩ := run_insertStep insertions hkeys hempty hsupplied
    exact ⟨final, outs, hrun, hgrown.answers
      (run_insertStep_keysFit insertions (hfit.initTree pools.tree) hrun) hdata⟩

theorem keysFit_bootStore : KeysFit bootStore.nodes :=
  fun _ ↦ show (0 : ℕ) < 2 ^ 32 by decide

instance (pools : Pools) (machine : Machine) : DecidablePred (Supplied pools machine) :=
  fun _ ↦ inferInstanceAs (Decidable (Fresh ..))

/-- Three insertions, two of them under one key. -/
theorem insertions_answered_three :
    ∃ final outs, run (insertStep 4 smallPools) (initTree smallPools.tree bootStore)
        [⟨100, 5, ⟨64, 64⟩⟩, ⟨200, 3, ⟨64, 64⟩⟩, ⟨300, 5, ⟨64, 64⟩⟩] = some (final, outs) ∧
      Answers 4 final [⟨100, 5, ⟨64, 64⟩⟩, ⟨200, 3, ⟨64, 64⟩⟩, ⟨300, 5, ⟨64, 64⟩⟩] := by
  refine (insertions_answered_iff smallPools bootStore ready_bootStore keysFit_bootStore 4 _
    (by decide) (by decide +kernel)).mpr ⟨by decide, fun key first hfirst ↦ ?_⟩
  obtain ⟨insertion, hinsertion, rfl⟩ := mem_map.mp (mem_of_mem_head? hfirst)
  have hmem := (mem_filter.mp hinsertion).1
  clear hinsertion hfirst
  revert insertion
  decide

/-- A key of 33 bits is stored as its low 32 bits, and its lookup returns `NULL`. -/
theorem insertion_lost :
    Ready smallPools bootStore ∧ KeysFit bootStore.nodes ∧
      Guarded (insertStep 2 smallPools) (Supplied smallPools) (initTree smallPools.tree bootStore)
        [⟨100, 2 ^ 32, ⟨64, 64⟩⟩] ∧
      ¬ ∃ final outs, run (insertStep 2 smallPools) (initTree smallPools.tree bootStore)
          [⟨100, 2 ^ 32, ⟨64, 64⟩⟩] = some (final, outs) ∧
        Answers 2 final [⟨100, 2 ^ 32, ⟨64, 64⟩⟩] := by
  refine ⟨ready_bootStore, keysFit_bootStore, by decide +kernel, ?_⟩
  rintro ⟨final, outs, hrun, hanswers⟩
  have hnull : ((run (insertStep 2 smallPools) (initTree smallPools.tree bootStore)
      [⟨100, 2 ^ 32, ⟨64, 64⟩⟩]).bind fun result ↦
        lookupTree 2 result.1.1 result.1.2 (2 ^ 32) 0).map (fun result ↦ result.2.2) =
      some NULL := by decide +kernel
  obtain ⟨value, hlookup, hvalue, -⟩ := hanswers.lookup (2 ^ 32)
  rw [hrun, Option.bind_some, hlookup, hvalue 100 (by decide), Option.map_some] at hnull
  exact absurd (Option.some.inj hnull) (show (100 : Ptr) ≠ NULL by decide)

end DionysOS.DataStructures.BinaryTree
