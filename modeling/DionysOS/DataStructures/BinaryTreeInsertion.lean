import DionysOS.DataStructures.BinaryTreeInvariant

/-!
# Insertion into the binary tree

An insertion either appends to the bucket of a node that has the key, or hangs a new node with a
bucket of one entry where the search for the key ends. Appending needs a usable `tail` in that
bucket, which the list module does not always leave behind.
-/

namespace DionysOS.DataStructures.BinaryTree

open Foundation SearchTree LinkedTree Function SinglyLinkedList List Node

variable {pools : Pools} {store store' : Store} {tree : Tree} {shape : BinaryTree Ptr}
  {bucket : Ptr → List Ptr} {multimap : Multimap} {alloc : Allocation} {key : ℕ}
  {address addr data : Ptr}

def Holds (pools : Pools) (store : Store) (tree : Tree) (multimap : Multimap) : Prop :=
  ∃ shape bucket, Coherent pools store tree shape bucket ∧ Entries store shape bucket multimap

/-- The tree holds the multimap, and its buckets have some property. -/
def HoldsWith (property : SinglyLinkedList → List Ptr → Prop) (pools : Pools) (store : Store)
    (tree : Tree) (multimap : Multimap) : Prop :=
  ∃ shape bucket, Coherent pools store tree shape bucket ∧ Entries store shape bucket multimap ∧
    ∀ address ∈ cells shape, property (store.nodes address).data (bucket address)

variable {property : SinglyLinkedList → List Ptr → Prop}

theorem HoldsWith.holds (hholds : HoldsWith property pools store tree multimap) :
    Holds pools store tree multimap := by
  obtain ⟨shape, bucket, hcoh, hentries, -⟩ := hholds
  exact ⟨shape, bucket, hcoh, hentries⟩

theorem Holds.with_true (hholds : Holds pools store tree multimap) :
    HoldsWith (fun _ _ ↦ True) pools store tree multimap := by
  obtain ⟨shape, bucket, hcoh, hentries⟩ := hholds
  exact ⟨shape, bucket, hcoh, hentries, fun _ _ ↦ trivial⟩

theorem Coherent.exists_buckets (hcoh : Coherent pools store tree shape bucket)
    (haddr : addr ∈ cells shape) : ∃ free, Buckets pools.lists store shape bucket free :=
  hcoh.buckets (hcoh.setup_of_mem haddr)

variable {free touched : List Ptr} {fresh new point : Ptr}

theorem Buckets.fresh_notMem (hbuckets : Buckets pools.lists store shape bucket free)
    (hfresh : SinglyLinkedList.Fresh pools.lists store.lists fresh) :
    ∀ other ∈ cells shape, fresh ∉ bucket other :=
  fun other hother ↦ (hbuckets.family.coherent other hother).fresh_notMem hfresh

theorem Buckets.null_notMem (hbuckets : Buckets pools.lists store shape bucket free) :
    ∀ other ∈ cells shape, NULL ∉ bucket other :=
  fun other hother ↦ (hbuckets.family.coherent other hother).represents.nonnull

/-- **Calls on one bucket.** What a list call does to the bucket of one node, the tree does to the
entries under its key. -/
theorem Coherent.changeBucketWith (hcoh : Coherent pools store tree shape bucket)
    (hentries : Entries store shape bucket multimap) (haddr : address ∈ cells shape)
    (hbuckets : Buckets pools.lists store shape bucket free)
    (hfresh : ∀ other ∈ cells shape, fresh ∉ bucket other)
    {lists' : NodeStore} {list' : SinglyLinkedList} {expected : List Ptr}
    (hbecomes : BecomesWith property pools.lists store.lists (bucket address) free
      fresh lists' list' expected) (hexpected : expected ≠ [])
    (hproperty : ∀ other ∈ cells shape, property (store.nodes other).data (bucket other)) :
    HoldsWith property pools { store with
        nodes := (update store.nodes address { store.nodes address with data := list' })
        lists := lists' } tree
      (update multimap (keyOf store.nodes address) expected) := by
  obtain ⟨cells', free', hlist, hcontents, hconfined, hlast⟩ := hbecomes
  let nodes' := update store.nodes address { store.nodes address with data := list' }
  -- Only the bucket changes in the node, so links, keys and flags stay.
  have hkeys : ∀ other, keyOf nodes' other = keyOf store.nodes other := field_update key rfl
  have hlinks : ∀ other, SameAt (linksOf store.nodes) (linksOf nodes') other := fun other ↦
    ⟨field_update left (by rfl) other, field_update right (by rfl) other,
      field_update parent (by rfl) other⟩
  obtain ⟨hfamily, hothers⟩ := hbuckets.family.update haddr hfresh hlist hconfined
    (fun other ↦ (nodes' other).data) (by simp [nodes'])
    (fun other h ↦ by simp [nodes', h])
  have hsetup := hconfined.setup.trans (hcoh.setup_of_mem haddr)
  refine ⟨shape, update bucket address cells', ⟨?_, ?_, ?_, fun _ ↦ hsetup, fun _ ↦ ?_⟩,
    ⟨?_, ?_⟩, ?_⟩
  · exact hcoh.represents.congr (fun other _ ↦ hlinks other) fun other _ ↦ hkeys other
  · refine hcoh.pooled.relink hcoh.pooled.owned ?_ ?_ rfl
    · exact fun other ↦ ⟨field_update Node.staticPool (by rfl) other,
        field_update Node.free (by rfl) other⟩
    · exact fun other _ ↦ ⟨(hlinks other).1, (hlinks other).2.1⟩
  · exact ⟨hcoh.ready.nodup, hcoh.ready.nonnull, fun _ ↦ ⟨free', hlist.pooled⟩⟩
  · refine ⟨free', hfamily, ?_⟩
    intro other hother
    by_cases h : other = address
    · subst h
      rw [update_self]
      rintro rfl
      exact hexpected hcontents.symm
    · rw [update_of_ne h]
      exact hbuckets.nonempty other hother
  · intro other hother
    rw [hkeys]
    by_cases h : other = address
    · subst h
      rw [update_self, update_self, hcontents]
    · have hkey : keyOf store.nodes other ≠ keyOf store.nodes address := fun hkey ↦
        h (hcoh.represents.ordered.eq_of_key_eq hother haddr hkey)
      rw [update_of_ne h, update_of_ne hkey, hothers other hother h]
      exact hentries.present other hother
  · intro other habsent
    have habsent' : ∀ cell ∈ cells shape, keyOf store.nodes cell ≠ other := by
      intro cell hcell
      rw [← hkeys]
      exact habsent cell hcell
    rw [update_of_ne (habsent' address haddr).symm]
    exact hentries.absent other habsent'
  · intro other hother
    change property (nodes' other).data (update bucket address cells' other)
    by_cases h : other = address
    · subst h
      rw [update_self, show nodes' other = _ from update_self ..]
      exact hlast
    · rw [update_of_ne h, show nodes' other = _ from update_of_ne h ..]
      exact hproperty other hother

structure Allocated (pool : List Ptr) (store store' : Store) (shape : BinaryTree Ptr)
    (new : Ptr) : Prop where
  nonnull : new ≠ NULL
  notMem : new ∉ cells shape
  nodes : ∀ other, other ≠ new → store'.nodes other = store.nodes other
  left : (store'.nodes new).left = NULL
  right : (store'.nodes new).right = NULL
  pooled : Pooled pool store' shape
  owned : Owned pool store' new
  lists : store'.lists = store.lists

theorem kmalloc_spec (hpooled : Pooled pools.tree store shape) (hfresh : Fresh pools store alloc)
    (full : Bool) :
    Allocated pools.tree store (kmalloc { store with poolFull := full } alloc.treeNode) shape
      alloc.treeNode := by
  have hnotMem := hpooled.fresh_notMem hfresh
  have hpool : ∀ other ∈ pools.tree, other ≠ alloc.treeNode := fun other hother h ↦
    hfresh.notPool (h ▸ hother)
  have hcell : ∀ other ∈ cells shape, other ≠ alloc.treeNode := fun other hother h ↦
    hnotMem (h ▸ hother)
  refine ⟨hfresh.nonnull, hnotMem, ?_, ?_, ?_, ⟨hpooled.nonnull, ?_, ?_, ?_⟩, ?_, rfl⟩
  · intro other h
    simp [kmalloc, h]
  · simp [kmalloc, Node.zero]
  · simp [kmalloc, Node.zero]
  · intro other hother
    simpa [kmalloc, hpool other hother] using hpooled.static other hother
  · intro other hother
    simpa [kmalloc, hpool other hother] using hpooled.unlinked other hother
  · intro other hother
    have howned := hpooled.owned other hother
    unfold Owned at howned ⊢
    simp only [kmalloc, update_of_ne (hcell other hother)]
    split
    · rename_i h
      rwa [if_pos h] at howned
    · rename_i h
      rw [if_neg h] at howned
      exact mem_cons_of_mem _ howned
  · simp [Owned, kmalloc, Node.zero]

theorem nodeAlloc_spec (hpooled : Pooled pools.tree store shape)
    (hfresh : Fresh pools store alloc) :
    ∃ store' new, nodeAlloc pools.tree store alloc.treeNode = (store', new) ∧
      Allocated pools.tree store store' shape new := by
  unfold nodeAlloc
  split
  · exact ⟨_, _, rfl, kmalloc_spec hpooled hfresh store.poolFull⟩
  · split
    · rename_i new hfind
      have hfree : (store.nodes new).free = true := by
        simpa using find?_some hfind
      have hpool : new ∈ pools.tree := mem_of_find?_eq_some hfind
      have hstatic := hpooled.static new hpool
      have hchildren := hpooled.unlinked new hpool hfree
      -- A node in use is not marked free.
      have hnotMem : new ∉ cells shape := fun hmem ↦
        hpooled.not_owned hpool hfree (hpooled.owned new hmem)
      have hcell : ∀ other ∈ cells shape, other ≠ new := fun other hother h ↦ hnotMem (h ▸ hother)
      refine ⟨_, _, rfl, fun h ↦ hpooled.nonnull (h ▸ hpool), hnotMem, ?_, ?_, ?_,
        ⟨hpooled.nonnull, ?_, ?_, ?_⟩, ?_, rfl⟩
      · intro other h
        simp [h]
      · simpa using hchildren.1
      · simpa using hchildren.2
      · intro other hother
        by_cases h : other = new
        · simpa [h] using hstatic
        · simpa [h] using hpooled.static other hother
      · intro other hother
        by_cases h : other = new
        · simp [h]
        · simpa [h] using hpooled.unlinked other hother
      · intro other hother
        have howned := hpooled.owned other hother
        unfold Owned at howned ⊢
        simpa [hcell other hother] using howned
      · simp [Owned, hstatic, hpool]
    · exact ⟨_, _, rfl, kmalloc_spec hpooled hfresh true⟩

theorem Coherent.init_lists (hcoh : Coherent pools store tree shape bucket) :
    ∃ lists' free, init pools.lists store.lists false = some (lists', ⟨NULL, NULL, 0, false⟩) ∧
      Family pools.lists lists' (· ∈ cells shape) (fun other ↦ (store.nodes other).data) bucket
        free ∧
      (∀ other ∈ cells shape, bucket other ≠ [] ∧
        contents lists'.nodes (bucket other) = contents store.lists.nodes (bucket other)) ∧
      lists'.kallocLive = store.lists.kallocLive ∧ lists'.staticPoolSetup = true := by
  by_cases hsetup : store.lists.staticPoolSetup = true
  · obtain ⟨free, hbuckets⟩ := hcoh.buckets hsetup
    exact ⟨store.lists, free, init_of_setup hsetup, hbuckets.family,
      fun other hother ↦ ⟨hbuckets.nonempty other hother, rfl⟩, rfl, hsetup⟩
  · obtain rfl : shape = .nil := by
      by_contra h
      exact hsetup (hcoh.setup h)
    obtain ⟨lists', free, hinit, hpooled, hlive, hsetup'⟩ :=
      init_pooled hcoh.ready
    exact ⟨lists', free, hinit, hpooled.family (by simp) _ bucket, by simp, hlive, hsetup'⟩

/-- A new node that is filled in but not yet linked to the tree. -/
structure Prepared (pools : Pools) (store store' : Store) (shape : BinaryTree Ptr)
    (bucket bucket' : Ptr → List Ptr) (free : List Ptr) (key : ℕ) (data new : Ptr) : Prop where
  nonnull : new ≠ NULL
  notMem : new ∉ cells shape
  nodes : ∀ other, other ≠ new → store'.nodes other = store.nodes other
  left : (store'.nodes new).left = NULL
  right : (store'.nodes new).right = NULL
  key : (store'.nodes new).key = key
  pooled : Pooled pools.tree store' shape
  owned : Owned pools.tree store' new
  family : Family pools.lists store'.lists (fun other ↦ other = new ∨ other ∈ cells shape)
    (fun other ↦ (store'.nodes other).data) bucket' free
  nonempty : ∀ other ∈ cells shape, bucket' other ≠ []
  contents : ∀ other ∈ cells shape, contents store'.lists.nodes (bucket' other) =
    contents store.lists.nodes (bucket other)
  newContents : SinglyLinkedList.contents store'.lists.nodes (bucket' new) = [data]
  buckets : ∀ other ∈ cells shape, bucket' other = bucket other
  newTail : TailLast (store'.nodes new).data (bucket' new)
  setup : store'.lists.staticPoolSetup = true

theorem newNode_spec (hcoh : Coherent pools store tree shape bucket)
    (hfresh : Fresh pools store alloc) (hkey : key < 2 ^ 32) (data : Ptr) :
    ∃ store' new bucket' free, newNode pools store data key alloc = some (store', new) ∧
      Prepared pools store store' shape bucket bucket' free key data new := by
  obtain ⟨mid, new, halloc, hallocated⟩ := nodeAlloc_spec hcoh.pooled hfresh
  obtain ⟨lists₁, free₁, hinit, hfamily, hold, hlive, hsetup⟩ := hcoh.init_lists
  have hcell : ∀ other ∈ cells shape, other ≠ new := fun other hother h ↦
    hallocated.notMem (h ▸ hother)
  have hfreshList : SinglyLinkedList.Fresh pools.lists lists₁ alloc.listNode :=
    ⟨hfresh.listNode.nonnull, hlive ▸ hfresh.listNode.notLive, hfresh.listNode.notPool⟩
  -- The new node joins the family with an empty bucket, and the first entry goes into it.
  have hjoined := hfamily.insert new
    (update (fun other ↦ (store.nodes other).data) new ⟨NULL, NULL, 0, false⟩)
    (update_self ..) (fun other h ↦ update_of_ne h ..)
  have hempty := hjoined.coherent new (.inl rfl)
  simp only [update_self] at hempty
  obtain ⟨lists₂, list', hinsert, cells', free₂, hlist, hcontents, hconfined, htail⟩ :=
    insertHead_spec hempty hfreshList data
  let nodes' := update mid.nodes new
    { mid.nodes new with data := list', key := key % 2 ^ 32 }
  have hnodes : ∀ other, other ≠ new → nodes' other = store.nodes other := by
    intro other h
    simp [nodes', h, hallocated.nodes other h]
  obtain ⟨hfamily', hothers⟩ := hjoined.update (.inl rfl)
    (fun other hother ↦ (hjoined.coherent other hother).fresh_notMem hfreshList) hlist
    (by simpa using hconfined) (fun other ↦ (nodes' other).data) (by simp [nodes'])
    (fun other h ↦ by simp [h, hnodes other h])
  refine ⟨{ mid with nodes := nodes', lists := lists₂ }, new,
    update (update bucket new []) new cells', free₂, ?_, ?_⟩
  · simp [newNode, halloc, hallocated.lists, hinit, hinsert, hallocated.nonnull, nodes']
  · refine {
      nonnull := hallocated.nonnull
      notMem := hallocated.notMem
      nodes := hnodes
      left := by simpa [nodes'] using hallocated.left
      right := by simpa [nodes'] using hallocated.right
      key := by simpa [nodes'] using Nat.mod_eq_of_lt hkey
      pooled := hallocated.pooled.relink hallocated.pooled.owned ?_ ?_ rfl
      owned := ?_
      family := hfamily'.mono _ ?_ (fun _ _ ↦ rfl)
      nonempty := ?_
      contents := ?_
      newContents := ?_
      buckets := ?_
      newTail := ?_
      setup := hconfined.setup.trans hsetup }
    · exact fun other ↦ ⟨field_update staticPool (by rfl) other,
        field_update free (by rfl) other⟩
    · exact fun other _ ↦ ⟨field_update left (by rfl) other,
        field_update right (by rfl) other⟩
    · simpa [Owned, nodes'] using hallocated.owned
    · rintro other (h | h)
      · exact .inl h
      · exact .inr ⟨h, hcell other h⟩
    · intro other hother
      simpa [hcell other hother] using (hold other hother).1
    · intro other hother
      have hne := hcell other hother
      rw [update_of_ne hne, update_of_ne hne, ← (hold other hother).2]
      have h := hothers other (.inr ⟨hother, hne⟩) hne
      rwa [update_of_ne hne] at h
    · rw [update_self, hcontents]
      rfl
    · intro other hother
      rw [update_of_ne (hcell other hother), update_of_ne (hcell other hother)]
    · simpa [nodes'] using htail rfl

/-- `after` differs from `before` only in the links of `touched`. -/
structure Relinked (before after : NodeMemory) (touched : List Ptr) : Prop where
  key : ∀ other, (after other).key = (before other).key
  data : ∀ other, (after other).data = (before other).data
  staticPool : ∀ other, (after other).staticPool = (before other).staticPool
  free : ∀ other, (after other).free = (before other).free
  elsewhere : ∀ other, other ∉ touched → after other = before other

theorem Relinked.trans {before mid after : NodeMemory}
    (hfirst : Relinked before mid touched) (hsecond : Relinked mid after touched) :
    Relinked before after touched where
  key other := (hsecond.key other).trans (hfirst.key other)
  data other := (hsecond.data other).trans (hfirst.data other)
  staticPool other := (hsecond.staticPool other).trans (hfirst.staticPool other)
  free other := (hsecond.free other).trans (hfirst.free other)
  elsewhere other h := (hsecond.elsewhere other h).trans (hfirst.elsewhere other h)

theorem Relinked.update (nodes : NodeMemory) (haddr : addr ∈ touched)
    (left right parent : Ptr) :
    Relinked nodes (update nodes addr
      { nodes addr with left := left, right := right, parent := parent }) touched where
  key := field_update Node.key rfl
  data := field_update Node.data rfl
  staticPool := field_update Node.staticPool rfl
  free := field_update Node.free rfl
  elsewhere _ h := update_of_ne (ne_of_mem_of_not_mem haddr h).symm ..

theorem relinked_under (nodes : NodeMemory) (hne : point ≠ new) (toLeft : Bool)
    (hpoint : point ∈ touched) (hnew : new ∈ touched) :
    Relinked nodes (update (update nodes point
      (if toLeft then { nodes point with left := new } else { nodes point with right := new })) new
        { nodes new with parent := point }) touched := by
  have hfirst : Relinked nodes (update nodes point
      (if toLeft then { nodes point with left := new } else { nodes point with right := new }))
      touched := by
    cases toLeft
    · exact .update nodes hpoint (nodes point).left new (nodes point).parent
    · exact .update nodes hpoint new (nodes point).right (nodes point).parent
  refine hfirst.trans ?_
  have hsecond := Relinked.update (update nodes point
    (if toLeft then { nodes point with left := new } else { nodes point with right := new })) hnew
    (nodes new).left (nodes new).right point
  rwa [update_of_ne hne.symm] at hsecond

/-- The node that a search for the key from the root of the tree finds. -/
def Locates (store : Store) (tree : Tree) (key : ℕ) (node : Ptr) : Prop :=
  ∃ shape, Linked (linksOf store.nodes) NULL NULL tree.root shape ∧
    search (keyOf store.nodes) key shape = some node

section Insertion

variable (husable : ∀ list cells, TailLast list cells → property list cells)
include husable

section

variable (hcoh : Coherent pools store tree shape bucket)
  (hentries : Entries store shape bucket multimap)
  (hproperty : ∀ other ∈ cells shape, property (store.nodes other).data (bucket other))
include hcoh hentries hproperty

theorem insertFound_spec (haddr : addr ∈ cells shape) (hfresh : Fresh pools store alloc)
    (htail : TailUsable (store.lists, (store.nodes addr).data)) (data : Ptr) :
    ∃ store', insertFound store tree data alloc addr = some (store', tree, KERN_SUCCESS) ∧
      HoldsWith property pools store' tree (update multimap (keyOf store.nodes addr)
        (multimap (keyOf store.nodes addr) ++ [data])) := by
  obtain ⟨free, hbuckets⟩ := hcoh.exists_buckets haddr
  have hlist := hbuckets.family.coherent addr haddr
  obtain ⟨lists', list', hinsert, hbecomes⟩ := insertTail_spec hlist
    hfresh.listNode (TailUsable.tailLast hlist htail) data
  rw [← hentries.present addr haddr] at hbecomes
  refine ⟨_, ?_, hcoh.changeBucketWith hentries haddr hbuckets
    (hbuckets.fresh_notMem hfresh.listNode) (hbecomes.mono husable) (by simp) hproperty⟩
  simp [insertFound, hcoh.represents.linked.ne_null addr haddr, hinsert]

theorem Prepared.holdsWith {bucket' : Ptr → List Ptr}
    (hprep : Prepared pools store store' shape bucket bucket' free key data new)
    (habsent : ∀ other ∈ cells shape, keyOf store.nodes other ≠ key) {nodes' : NodeMemory}
    {tree' : Tree} {shape' : BinaryTree Ptr} (hrep : Represents nodes' tree' shape')
    (hrelinked : Relinked store'.nodes nodes' (cells shape'))
    (hcells : ∀ other, other ∈ cells shape' ↔ other = new ∨ other ∈ cells shape) :
    HoldsWith property pools { store' with nodes := nodes' } tree'
      (update multimap key (multimap key ++ [data])) := by
  have hcell : ∀ other ∈ cells shape, other ≠ new := fun other hother h ↦
    hprep.notMem (h ▸ hother)
  have howned : ∀ other ∈ cells shape', Owned pools.tree store' other := by
    intro other hother
    rcases (hcells other).mp hother with rfl | h
    · exact hprep.owned
    · exact hprep.pooled.owned other h
  have hkeys : ∀ other ∈ cells shape, keyOf nodes' other = keyOf store.nodes other := by
    intro other hother
    unfold keyOf
    rw [hrelinked.key, hprep.nodes other (hcell other hother)]
  have hnewKey : keyOf nodes' new = key := (hrelinked.key new).trans hprep.key
  refine ⟨shape', bucket', ⟨hrep, hprep.pooled.relink howned ?_ ?_ rfl, ?_,
    fun _ ↦ hprep.setup, fun _ ↦ ⟨free, ?_, ?_⟩⟩, ⟨?_, ?_⟩, ?_⟩
  · exact fun other ↦ ⟨hrelinked.staticPool other, hrelinked.free other⟩
  · intro other hother
    have hsame : nodes' other = store'.nodes other := hrelinked.elsewhere other hother
    exact ⟨congrArg Node.left hsame, congrArg Node.right hsame⟩
  · exact ⟨hcoh.ready.nodup, hcoh.ready.nonnull, fun _ ↦ ⟨free, hprep.family.pooled⟩⟩
  · exact hprep.family.mono _ (fun other ↦ (hcells other).mp) (fun other _ ↦ hrelinked.data other)
  · intro other hother
    rcases (hcells other).mp hother with rfl | h
    · intro hnil
      have hcontents := hprep.newContents
      rw [hnil] at hcontents
      cases hcontents
    · exact hprep.nonempty other h
  · intro other hother
    rcases (hcells other).mp hother with rfl | h
    · rw [hnewKey, update_self, hentries.absent key habsent]
      exact hprep.newContents.symm
    · rw [hkeys other h, update_of_ne (habsent other h), hentries.present other h]
      exact (hprep.contents other h).symm
  · intro other hnone
    have hother : other ≠ key := by
      rintro rfl
      exact hnone new ((hcells new).mpr (.inl rfl)) hnewKey
    rw [update_of_ne hother]
    refine hentries.absent other fun cell hcell ↦ ?_
    rw [← hkeys cell hcell]
    exact hnone cell ((hcells cell).mpr (.inr hcell))
  · intro other hother
    rw [hrelinked.data]
    rcases (hcells other).mp hother with rfl | h
    · exact husable _ _ hprep.newTail
    · rw [hprep.nodes other (hcell other h), hprep.buckets other h]
      exact hproperty other h

theorem insertUnder_spec (hshape : shape ≠ .nil)
    (habsent : search (keyOf store.nodes) key shape = none)
    (hfresh : Fresh pools store alloc) (hkey : key < 2 ^ 32) (data : Ptr)
    (hpoint : point = attachPoint (keyOf store.nodes) key NULL shape) :
    ∃ store' tree', insertUnder pools store tree data key alloc point
          (key < keyOf store.nodes point) = some (store', tree', KERN_SUCCESS) ∧
      HoldsWith property pools store' tree' (update multimap key (multimap key ++ [data])) ∧
      tree'.nodeCount = tree.nodeCount + 1 := by
  have habsent' := hcoh.represents.ordered.search_eq_none habsent
  obtain ⟨store', new, bucket', free, hnew, hprep⟩ := newNode_spec hcoh hfresh hkey data
  have hmem : point ∈ cells shape := hpoint ▸ attachPoint_mem NULL hshape
  have hnonnull : point ≠ NULL := hcoh.represents.linked.ne_null point hmem
  have hne : point ≠ new := fun h ↦ hprep.notMem (h ▸ hmem)
  have hsame : ∀ other ∈ cells shape, store'.nodes other = store.nodes other := fun other hother ↦
    hprep.nodes other fun h ↦ hprep.notMem (h ▸ hother)
  let nodes' := update (update store'.nodes point
    (if key < keyOf store.nodes point then { store'.nodes point with left := new }
      else { store'.nodes point with right := new })) new
        { store'.nodes new with parent := point }
  have hrelinked : Relinked store'.nodes nodes'
      (cells (attach (keyOf store.nodes) key new shape)) := by
    have hmem' : point ∈ cells (attach (keyOf store.nodes) key new shape) :=
      mem_attach.mpr (.inr hmem)
    have hnew' : new ∈ cells (attach (keyOf store.nodes) key new shape) :=
      mem_attach.mpr (.inl rfl)
    simpa using relinked_under store'.nodes hne (key < keyOf store.nodes point) hmem' hnew'
  have hlinked : Linked (linksOf nodes') NULL NULL (attachLink new tree.root shape)
      (attach (keyOf store.nodes) key new shape) := by
    apply hcoh.represents.linked.attach hcoh.represents.nodup hprep.notMem
      hprep.nonnull
    rw [← hpoint]
    refine ⟨?_, ?_, ?_, ?_, ?_, ?_, ?_⟩
    · intro other h h'
      simp [SameAt, linksOf, nodes', h, h', hprep.nodes other h]
    · simp only [linksOf, nodes', update_of_ne hne, update_self, hsame point hmem]
      split <;> rfl
    · simp only [linksOf, nodes', update_of_ne hne, update_self, hsame point hmem]
      split <;> rfl
    · simp only [linksOf, nodes', update_of_ne hne, update_self, hsame point hmem]
      split <;> rfl
    · simpa [linksOf, nodes'] using hprep.left
    · simpa [linksOf, nodes'] using hprep.right
    · simp [linksOf, nodes']
  have hroot : attachLink new tree.root shape = tree.root := by
    cases shape with
    | nil => exact absurd rfl hshape
    | node root left right => rfl
  have hrep : Represents nodes' { tree with nodeCount := tree.nodeCount + 1 }
      (attach (keyOf store.nodes) key new shape) := by
    refine ⟨hroot ▸ hlinked, ?_, ?_⟩
    · have hkeys : ∀ other ∈ cells shape, keyOf nodes' other = keyOf store.nodes other := by
        intro other hother
        exact (hrelinked.key other).trans (congrArg Node.key (hsame other hother))
      rw [← attach_congr hkeys]
      refine (hcoh.represents.ordered.congr hkeys).attach
        ((hrelinked.key new).trans hprep.key) ?_
      intro other hother
      rw [hkeys other hother]
      exact habsent' other hother
    · rw [numNodes_attach, hcoh.represents.count]
  refine ⟨_, _, ?_, hprep.holdsWith husable hcoh hentries hproperty habsent' hrep
    hrelinked (fun other ↦ mem_attach), rfl⟩
  simp [insertUnder, hnew, hnonnull, hprep.nonnull, nodes', hne.symm]

end

theorem insertRoot_spec (hcoh : Coherent pools store tree .nil bucket)
    (hentries : Entries store .nil bucket multimap)
    (hfresh : Fresh pools store alloc) (hkey : key < 2 ^ 32) (data : Ptr) (fuel : ℕ) :
    ∃ store' tree', insertBinaryTree fuel pools store tree data key alloc =
        some (store', tree', KERN_SUCCESS) ∧
      HoldsWith property pools store' tree' (update multimap key (multimap key ++ [data])) ∧
      tree'.nodeCount = tree.nodeCount + 1 := by
  obtain ⟨store', new, bucket', free, hnew, hprep⟩ := newNode_spec hcoh hfresh hkey data
  have hroot : tree.root = NULL := hcoh.represents.linked
  let nodes' := update store'.nodes new { store'.nodes new with parent := NULL }
  have hrelinked : Relinked store'.nodes nodes' (cells (.node new .nil .nil)) :=
    .update store'.nodes (by simp) (store'.nodes new).left (store'.nodes new).right NULL
  have hrep : Represents nodes' ⟨new, tree.nodeCount + 1⟩ (.node new .nil .nil) := by
    refine ⟨⟨rfl, hprep.nonnull, by simp [linksOf, nodes'], ?_, ?_⟩, ?_, ?_⟩
    · simpa [Linked, linksOf, nodes'] using hprep.left
    · simpa [Linked, linksOf, nodes'] using hprep.right
    · exact ⟨by simp, by simp, trivial, trivial⟩
    · simp [hcoh.represents.count]
  refine ⟨_, _, ?_, hprep.holdsWith husable hcoh hentries (by simp) (by simp) hrep
    hrelinked (by simp), rfl⟩
  simp [insertBinaryTree, hroot, hnew, hprep.nonnull, nodes']

/-- **Insertion.** If the bucket of the key, where there is one, has a usable tail, an insertion
adds its entry and nothing else. -/
theorem insertBinaryTree_with (hholds : HoldsWith property pools store tree multimap)
    (hfresh : Fresh pools store alloc) (hkey : key < 2 ^ 32) {fuel : ℕ}
    (hfuel : tree.nodeCount ≤ fuel) (htail : ∀ node, Locates store tree key node →
      TailUsable (store.lists, (store.nodes node).data)) (data : Ptr) :
    ∃ store' tree', insertBinaryTree fuel pools store tree data key alloc =
        some (store', tree', KERN_SUCCESS) ∧
      HoldsWith property pools store' tree'
        (update multimap key (multimap key ++ [data])) ∧
      tree'.nodeCount ≤ tree.nodeCount + 1 := by
  obtain ⟨shape, bucket, hcoh, hentries, hproperty⟩ := hholds
  by_cases hshape : shape = .nil
  · subst hshape
    obtain ⟨store', tree', hinsert, hafter, hcount⟩ :=
      insertRoot_spec husable hcoh hentries hfresh hkey data fuel
    exact ⟨store', tree', hinsert, hafter, hcount.le⟩
  · have hroot : tree.root ≠ NULL := fun h ↦
      hshape (hcoh.represents.linked.link_eq_null.mp h)
    have hloop := insertLoop_eq pools data key alloc hcoh.represents hshape
      (hcoh.represents.count ▸ hfuel)
    rw [insertBinaryTree, if_neg hroot, hloop]
    cases hsearch : search (keyOf store.nodes) key shape with
    | none =>
      obtain ⟨store', tree', hinsert, hafter, hcount⟩ := insertUnder_spec husable hcoh
        hentries hproperty hshape hsearch hfresh hkey data rfl
      exact ⟨store', tree', hinsert, hafter, hcount.le⟩
    | some node =>
      obtain ⟨hmem, rfl⟩ := search_mem hsearch
      obtain ⟨store', hinsert, hafter⟩ := insertFound_spec husable hcoh hentries hproperty hmem
        hfresh (htail node ⟨shape, hcoh.represents.linked, hsearch⟩) data
      exact ⟨store', tree, hinsert, hafter, Nat.le_succ _⟩

end Insertion

end DionysOS.DataStructures.BinaryTree
