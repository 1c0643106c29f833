import DionysOS.DataStructures.BinaryTreeRemoval

/-!
# The binary tree refines a multimap

The abstract state maps every key to the data under it, oldest first. An insertion appends, a
lookup with removal takes the oldest entry, and a removal by address takes the first entry with
that address. `init_refines_multimap` is the refinement of whole runs; its conditions are those of
the list module for the buckets, and `Removable` for a node that loses its last entry.

The failing run after it removes the only entry of the root: the emptied bucket stays in the tree,
and the next lookup of the key dereferences its null head.
-/

namespace DionysOS.DataStructures.BinaryTree

open Foundation SearchTree LinkedTree PartialMachine Function List
open SinglyLinkedList (contents Family)

variable {pools : Pools} {store : Store} {tree : Tree} {shape : BinaryTree Ptr}
  {bucket : Ptr → List Ptr} {multimap : Multimap} {key : ℕ} {node data : Ptr} {fuel : ℕ}

theorem Coherent.multimap_eq_nil (hcoh : Coherent pools store tree shape bucket)
    (hentries : Entries store shape bucket multimap)
    (hsearch : search (keyOf store.nodes) key shape = none) : multimap key = [] :=
  hentries.absent key (hcoh.represents.ordered.search_eq_none hsearch)

theorem Coherent.lookupTree_eq (hcoh : Coherent pools store tree shape bucket)
    (hfuel : tree.nodeCount < fuel) (key remove : ℕ) :
    lookupTree fuel store tree key remove =
      (search (keyOf store.nodes) key shape).elim (some (store, tree, NULL))
        (lookupFound fuel key remove store tree) := by
  have hlinked := hcoh.represents.linked
  unfold lookupTree
  by_cases hshape : shape = .nil
  · rw [if_pos (hlinked.link_eq_null.mpr hshape), hshape]
    rfl
  · rw [if_neg fun h ↦ hshape (hlinked.link_eq_null.mp h)]
    exact lookupLoop_eq fuel key remove hcoh.represents hshape
      (hcoh.represents.count ▸ hfuel.le)

theorem lookupTree_spec (hholds : Holds pools store tree multimap) (hfuel : tree.nodeCount < fuel)
    (key : ℕ) : lookupTree fuel store tree key 0 =
      some (store, tree, (multimap key).headD NULL) := by
  obtain ⟨shape, bucket, hcoh, hentries⟩ := hholds
  rw [hcoh.lookupTree_eq hfuel]
  cases hsearch : search (keyOf store.nodes) key shape with
  | none =>
    rw [hcoh.multimap_eq_nil hentries hsearch]
    rfl
  | some node =>
    obtain ⟨hnode, rfl⟩ := search_mem hsearch
    obtain ⟨hhead, hfirst⟩ := hcoh.bucket_head hentries hnode
    have hnonnull := hcoh.represents.linked.ne_null node hnode
    rw [headD_eq_head?_getD, hfirst]
    simp [lookupFound, hnonnull, hhead]

theorem lookupTree_remove_spec (hholds : Holds pools store tree multimap)
    (hcount : tree.nodeCount < fuel) (hfuel : (multimap key).length < fuel)
    (hfits : ∀ node, Locates store tree key node → RemovalFits store tree node
      (store.lists.nodes (store.nodes node).data.head).data) :
    ∃ store' tree', lookupTree fuel store tree key REMOVE_FROM_TREE =
        some (store', tree', (multimap key).headD NULL) ∧
      Holds pools store' tree' (update multimap key (multimap key).tail) ∧
      tree'.nodeCount ≤ tree.nodeCount := by
  have hall := hholds
  obtain ⟨shape, bucket, hcoh, hentries⟩ := hholds
  rw [hcoh.lookupTree_eq hcount]
  cases hsearch : search (keyOf store.nodes) key shape with
  | none =>
    have hnil := hcoh.multimap_eq_nil hentries hsearch
    refine ⟨store, tree, by rw [hnil]; rfl, ?_, le_rfl⟩
    have hsame : update multimap key (multimap key).tail = multimap := by
      rw [update_eq_self_iff, hnil]
      rfl
    rwa [hsame]
  | some node =>
    have hlocates : Locates store tree key node := ⟨shape, hcoh.represents.linked, hsearch⟩
    obtain ⟨hnode, rfl⟩ := search_mem hsearch
    obtain ⟨hhead, hfirst⟩ := hcoh.bucket_head hentries hnode
    have hnonnull := hcoh.represents.linked.ne_null node hnode
    let value := (store.lists.nodes (store.nodes node).data.head).data
    obtain ⟨rest, hrest⟩ : ∃ rest, multimap (keyOf store.nodes node) = value :: rest := by
      cases hlist : multimap (keyOf store.nodes node) with
      | nil => rw [hlist] at hfirst; cases hfirst
      | cons first rest =>
        rw [hlist, head?_cons] at hfirst
        exact ⟨rest, by rw [Option.some.inj hfirst]⟩
    obtain ⟨store', tree', hremove, hafter, hle⟩ := removeBinaryTree_spec hcoh hentries hnode
      (hfits node hlocates) (by rw [hrest]; exact mem_cons_self) hcount hfuel (.inr rfl)
    refine ⟨store', tree', ?_, ?_, hle⟩
    · rw [hrest]
      simp [lookupFound, hnonnull, hhead, REMOVE_FROM_TREE, hremove, value]
    · rw [hrest] at hafter ⊢
      simpa [value] using hafter

/-- The globals before a tree is initialised: static storage starts zero-filled, and a pool that is
already in use keeps its rules. -/
structure Ready (pools : Pools) (store : Store) : Prop where
  nonnull : NULL ∉ pools.tree
  unlinked : ∀ address ∈ pools.tree,
    store.staticPoolInit = false ∨ (store.nodes address).free = true →
    (store.nodes address).left = NULL ∧ (store.nodes address).right = NULL
  static : store.staticPoolInit = true → ∀ address ∈ pools.tree,
    (store.nodes address).staticPool = true
  lists : SinglyLinkedList.Ready pools.lists store.lists

theorem initTree_spec (hready : Ready pools store) :
    Holds pools (initTree pools.tree store).1 (initTree pools.tree store).2 (fun _ ↦ []) := by
  have hlists : (initTree pools.tree store).1.lists = store.lists := by
    unfold initTree
    split <;> rfl
  refine ⟨.nil, fun _ ↦ [], ⟨⟨rfl, trivial, rfl⟩, ⟨hready.nonnull, ?_, ?_, by simp⟩, ?_, ?_, ?_⟩,
    by simp, by simp⟩
  · intro addr haddr
    by_cases hinit : store.staticPoolInit = true
    · simpa [initTree, hinit] using hready.static hinit addr haddr
    · simp [initTree, hinit, haddr]
  · intro addr haddr
    by_cases hinit : store.staticPoolInit = true
    · simpa [initTree, hinit] using fun hfree ↦ hready.unlinked addr haddr (.inr hfree)
    · have h := hready.unlinked addr haddr (.inl (by simpa using hinit))
      simpa [initTree, hinit, haddr] using h
  · rw [hlists]
    exact hready.lists
  · exact fun h ↦ absurd rfl h
  · intro hsetup
    rw [hlists] at hsetup
    obtain ⟨free, hpooled⟩ := hready.lists.pooled hsetup
    refine ⟨free, ?_, by simp⟩
    rw [hlists]
    exact hpooled.family (by simp) _ _

inductive Operation where
  /-- `insert_binary_tree(tree, data, key)`, with what the allocator would return. -/
  | insert (data : Ptr) (key : ℕ) (allocation : Allocation)
  /-- `lookup_tree(tree, key, REMOVE_FROM_TREE)`. -/
  | lookupRemove (key : ℕ)
  /-- `remove_binary_tree(tree, key, data, NULL)`. -/
  | remove (key : ℕ) (data : Ptr)
deriving DecidableEq, Repr

abbrev Machine := Store × Tree

def step (fuel : ℕ) (pools : Pools) : Machine → Operation → Option (Machine × ℕ)
  | (store, tree), .insert data key allocation =>
      (insertBinaryTree fuel pools store tree data key allocation).map fun (store, tree, status) ↦
        ((store, tree), status)
  | (store, tree), .lookupRemove key =>
      (lookupTree fuel store tree key REMOVE_FROM_TREE).map fun (store, tree, data) ↦
        ((store, tree), data)
  | (store, tree), .remove key data =>
      (removeBinaryTree fuel store tree key data NULL).map fun (store, tree, status) ↦
        ((store, tree), status)

def multimapStep : Multimap → Operation → Multimap × ℕ
  | multimap, .insert data key _ =>
      (update multimap key (multimap key ++ [data]), KERN_SUCCESS)
  | multimap, .lookupRemove key =>
      (update multimap key (multimap key).tail, (multimap key).headD NULL)
  | multimap, .remove key data =>
      (update multimap key ((multimap key).erase data), KERN_SUCCESS)

/-- The tree is a search tree with right parent links and a right count, its buckets hold the
multimap in order, and every lookup finds the oldest entry of its key, or nothing. -/
def HoldsMultimap (fuel : ℕ) (machine : Machine) (multimap : Multimap) : Prop :=
  ∃ shape, Linked (linksOf machine.1.nodes) NULL NULL machine.2.root shape ∧
    Ordered (keyOf machine.1.nodes) shape ∧ machine.2.nodeCount = shape.numNodes ∧
    (∀ node ∈ cells shape, ∃ bucket,
      SinglyLinkedList.Represents machine.1.lists.nodes (machine.1.nodes node).data bucket ∧
      contents machine.1.lists.nodes bucket = multimap (keyOf machine.1.nodes node)) ∧
    ∀ key, lookupTree fuel machine.1 machine.2 key 0 =
      some (machine.1, machine.2, (multimap key).headD NULL)

/-- The run returns, its calls return what the calls on the multimap return, and the tree holds
the multimap. -/
def RunRefines (fuel : ℕ) (pools : Pools) (machine : Machine) (operations : List Operation) :
    Prop :=
  ∃ final, run (step fuel pools) machine operations =
      some (final, (runPure multimapStep (fun _ ↦ []) operations).2) ∧
    HoldsMultimap fuel final (runPure multimapStep (fun _ ↦ []) operations).1

def Present (machine : Machine) (key : ℕ) (data : Ptr) : Prop :=
  ∃ node bucket, Locates machine.1 machine.2 key node ∧
    SinglyLinkedList.Represents machine.1.lists.nodes (machine.1.nodes node).data bucket ∧
    data ∈ contents machine.1.lists.nodes bucket

/-- What the caller and the allocator promise: keys fit into 32 bits, removed entries are present,
and new addresses are unused. -/
def Promised (pools : Pools) (machine : Machine) : Operation → Prop
  | .insert _ key allocation => key < 2 ^ 32 ∧ Fresh pools machine.1 allocation
  | .lookupRemove _ => True
  | .remove key data => Present machine key data

/-- The state is one that the code can handle. -/
def Meets (machine : Machine) : Operation → Prop
  | .insert _ key _ => ∀ node, Locates machine.1 machine.2 key node →
      SinglyLinkedList.TailUsable (machine.1.lists, (machine.1.nodes node).data)
  | .lookupRemove key => ∀ node, Locates machine.1 machine.2 key node →
      RemovalFits machine.1 machine.2 node
        (machine.1.lists.nodes (machine.1.nodes node).data.head).data
  | .remove key data => ∀ node, Locates machine.1 machine.2 key node →
      RemovalFits machine.1 machine.2 node data

def Admissible (pools : Pools) (machine : Machine) (operation : Operation) : Prop :=
  Promised pools machine operation ∧ Meets machine operation

def Related (pools : Pools) (fuel budget : ℕ) (machine : Machine) (multimap : Multimap) : Prop :=
  Holds pools machine.1 machine.2 multimap ∧ machine.2.nodeCount + budget < fuel ∧
    ∀ key, (multimap key).length + budget < fuel

variable {budget : ℕ} {machine : Machine}

theorem length_update_lt (hbound : ∀ other, (multimap other).length + (budget + 1) < fuel)
    {entries : List Ptr} (hentries : entries.length ≤ (multimap key).length + 1) :
    ∀ other, (update multimap key entries other).length + budget < fuel := by
  intro other
  by_cases h : other = key
  · subst h
    rw [update_self]
    have := hbound other
    omega
  · rw [update_of_ne h]
    have := hbound other
    omega

theorem step_refines {op : Operation}
    (hrelated : Related pools fuel (budget + 1) machine multimap)
    (hadmissible : Admissible pools machine op) :
    ∃ next, step fuel pools machine op = some (next, (multimapStep multimap op).2) ∧
      Related pools fuel budget next (multimapStep multimap op).1 := by
  obtain ⟨store, tree⟩ := machine
  obtain ⟨hholds, hcount, hbound⟩ := hrelated
  obtain ⟨hprom, hmeets⟩ := hadmissible
  change Holds pools store tree multimap at hholds
  change tree.nodeCount + (budget + 1) < fuel at hcount
  cases op with
  | insert data key alloc =>
    obtain ⟨store', tree', hinsert, hafter, hle⟩ := insertBinaryTree_with
      (fun _ _ _ ↦ trivial) hholds.with_true hprom.2 hprom.1
      (show tree.nodeCount ≤ fuel by omega) hmeets data
    refine ⟨(store', tree'), by simp [step, hinsert, multimapStep], hafter.holds, ?_,
      length_update_lt hbound (by simp)⟩
    simp only
    omega
  | lookupRemove key =>
    obtain ⟨store', tree', hlookup, hafter, hle⟩ := lookupTree_remove_spec hholds
      (show tree.nodeCount < fuel by omega) (by have := hbound key; omega) hmeets
    refine ⟨(store', tree'), by simp [step, hlookup, multimapStep], hafter, ?_,
      length_update_lt hbound ?_⟩
    · simp only
      omega
    · rw [length_tail]
      omega
  | remove key data =>
    obtain ⟨shape, bucket, hcoh, hentries⟩ := hholds
    obtain ⟨node, bucket', hlocates, hrep, hdata⟩ := hprom
    obtain ⟨shape', hlinked, hsearch⟩ := id hlocates
    obtain rfl := hcoh.represents.linked.unique hlinked
    obtain ⟨hnode, rfl⟩ := search_mem hsearch
    obtain ⟨free, hbuckets⟩ := hcoh.exists_buckets hnode
    have hbucket := (hbuckets.family.coherent node hnode).represents.unique hrep
    have hpresent : data ∈ multimap (keyOf store.nodes node) := by
      rw [hentries.present node hnode, hbucket]
      exact hdata
    obtain ⟨store', tree', hremove, hafter, hle⟩ := removeBinaryTree_spec hcoh hentries hnode
      (hmeets node hlocates) hpresent
      (show tree.nodeCount < fuel by omega) (by have := hbound (keyOf store.nodes node); omega) (.inl rfl)
    refine ⟨(store', tree'), by simp [step, hremove, multimapStep], hafter, ?_,
      length_update_lt hbound ?_⟩
    · simp only
      omega
    · exact (length_erase_le).trans (Nat.le_succ _)

theorem Related.holdsMultimap (hrelated : Related pools fuel budget machine multimap) :
    HoldsMultimap fuel machine multimap := by
  obtain ⟨hholds, hcount, -⟩ := hrelated
  have hlookup := lookupTree_spec hholds (show machine.2.nodeCount < fuel by omega)
  obtain ⟨shape, bucket, hcoh, hentries⟩ := hholds
  refine ⟨shape, hcoh.represents.linked, hcoh.represents.ordered,
    hcoh.represents.count, ?_, hlookup⟩
  intro node hnode
  obtain ⟨free, hbuckets⟩ := hcoh.exists_buckets hnode
  exact ⟨bucket node, (hbuckets.family.coherent node hnode).represents,
    (hentries.present node hnode).symm⟩

/-- **Refinement of runs.** Every run from an initialised tree whose calls are promised and meet
`Meets` returns, returns the right entries, and leaves a search tree that holds the multimap. -/
theorem init_refines_multimap (pools : Pools) (store : Store) (hready : Ready pools store)
    (fuel : ℕ) (operations : List Operation) (hfuel : operations.length < fuel)
    (hguarded : Guarded (step fuel pools) (Admissible pools) (initTree pools.tree store)
      operations) :
    RunRefines fuel pools (initTree pools.tree store) operations := by
  have hstep : ∀ budget machine multimap op,
      Related pools fuel (budget + 1) machine multimap → Admissible pools machine op →
      ∃ next, step fuel pools machine op = some (next, (multimapStep multimap op).2) ∧
        Related pools fuel budget next (multimapStep multimap op).1 :=
    fun _ _ _ _ ↦ step_refines
  have hrelated : Related pools fuel (operations.length + 0) (initTree pools.tree store)
      (fun _ ↦ []) := by
    refine ⟨initTree_spec hready, ?_, ?_⟩
    · simpa [initTree] using hfuel
    · simpa using hfuel
  obtain ⟨final, hrun, hfinal⟩ := run_refines hstep operations 0 _ _ hrelated hguarded
  exact ⟨final, hrun, hfinal.holdsMultimap⟩

theorem Locates.eq_search (hlocates : Locates store tree key node) (shape : BinaryTree Ptr)
    (hlinked : Linked (linksOf store.nodes) NULL NULL tree.root shape) {found : Option Ptr}
    (hsearch : search (keyOf store.nodes) key shape = found) : found = some node := by
  obtain ⟨other, hother, hnode⟩ := hlocates
  rw [← hsearch, hlinked.unique hother, hnode]

def bootStore : Store := ⟨fun _ ↦ Node.zero, false, false, [], SinglyLinkedList.bootStore⟩

def smallPools : Pools := ⟨[8, 16], [8, 16]⟩

theorem ready_bootStore : Ready smallPools bootStore :=
  ⟨by decide, fun _ _ _ ↦ ⟨rfl, rfl⟩, fun h ↦ by simp [bootStore] at h,
    SinglyLinkedList.ready_bootStore⟩

/-- A run that removes a left leaf of the static pool. -/
theorem init_refines_multimap_leftLeaf :
    RunRefines 4 smallPools (initTree smallPools.tree bootStore)
      [.insert 100 5 ⟨64, 64⟩, .insert 200 3 ⟨64, 64⟩, .remove 3 200] := by
  refine init_refines_multimap smallPools bootStore ready_bootStore 4 _ (by decide) ?_
  refine Guarded.cons (by decide +kernel) ⟨⟨by decide, by decide⟩, fun node hlocates ↦ ?_⟩ ?_
  · cases hlocates.eq_search .nil rfl rfl
  refine Guarded.cons (by decide +kernel) ⟨⟨by decide, by decide +kernel⟩,
    fun node hlocates ↦ ?_⟩ ?_
  · have hnone : none = some node := hlocates.eq_search (.node 8 .nil .nil) (by decide +kernel)
      (by decide +kernel)
    cases hnone
  refine Guarded.cons (by decide +kernel) ⟨⟨16, [8], ⟨.node 8 (.node 16 .nil .nil) .nil,
    by decide +kernel, by decide +kernel⟩, ⟨by decide +kernel, by decide, by decide +kernel⟩,
    by decide +kernel⟩, fun node hlocates ↦ ?_⟩ trivial
  have hnode : some 16 = some node := hlocates.eq_search (.node 8 (.node 16 .nil .nil) .nil)
    (by decide +kernel) (by decide +kernel)
  cases hnode
  exact ⟨fun h ↦ absurd h (by decide +kernel), .inr ⟨by decide +kernel, .inl (by decide +kernel),
    fun _ ↦ .inr (by decide +kernel)⟩⟩

/-- Removing the only entry of the root leaves an empty bucket, and the lookup of its key
faults. -/
theorem lookupRemove_root_breaks_lookup :
    Ready smallPools bootStore ∧
      Guarded (step 3 smallPools) (Promised smallPools) (initTree smallPools.tree bootStore)
        [.insert 100 5 ⟨64, 64⟩, .lookupRemove 5] ∧
      ¬ RunRefines 3 smallPools (initTree smallPools.tree bootStore)
        [.insert 100 5 ⟨64, 64⟩, .lookupRemove 5] := by
  refine ⟨ready_bootStore, ?_, ?_⟩
  · refine ⟨⟨by decide, by decide⟩, ?_⟩
    exact fun next out _ ↦ ⟨trivial, fun _ _ _ ↦ trivial⟩
  · rintro ⟨final, hrun, shape, -, -, -, -, hlookup⟩
    have hfaults : ((run (step 3 smallPools) (initTree smallPools.tree bootStore)
        [.insert 100 5 ⟨64, 64⟩, .lookupRemove 5]).bind fun result ↦
          lookupTree 3 result.1.1 result.1.2 5 0).isSome = false := by decide +kernel
    rw [hrun, Option.bind_some, hlookup 5] at hfaults
    cases hfaults

end DionysOS.DataStructures.BinaryTree
