import DionysOS.DataStructures.BinaryTreeInsertion

/-!
# Removal from the binary tree

Taking one of several entries out of a bucket is a call on the list. Taking the last entry out
removes the node, and here the code is right only for some positions of the node:

* the root is never removed, so its bucket would stay behind empty;
* a node with two children leaves stale parent links behind;
* `node_free` unhooks a node of the static pool from its parent a second time. The parent no
  longer leads to the node by then, so its left link is cleared, whatever it leads to.

`Removable` is the condition that rules these out.
-/

namespace DionysOS.DataStructures.BinaryTree

open Foundation SearchTree LinkedTree List Function Option SinglyLinkedList Node
open SinglyLinkedList (contents Family)

variable {pools : Pools} {store store' : Store} {tree : Tree} {shape : BinaryTree Ptr}
  {bucket : Ptr → List Ptr} {multimap : Multimap} {key : ℕ} {node data : Ptr}

/-- The code can remove this node: it is not the root, it has at most one child, and if it belongs
to the static pool, then its parent has no left child to lose. -/
def Removable (store : Store) (tree : Tree) (node : Ptr) : Prop :=
  node ≠ tree.root ∧
    ((store.nodes node).left = NULL ∨ (store.nodes node).right = NULL) ∧
    ((store.nodes node).staticPool = true →
      (store.nodes (store.nodes node).parent).left = NULL ∨
        ((store.nodes (store.nodes node).parent).left = node ∧
          (store.nodes node).left = NULL ∧ (store.nodes node).right = NULL))

/-- The node memory once the parent of `node` leads to its only child and back. -/
def bypass (nodes : NodeMemory) (node : Ptr) : NodeMemory :=
  let parent := (nodes node).parent
  let child := onlyChild (linksOf nodes) NULL node
  let hooked := Function.update nodes parent
    (if (nodes parent).left = node then { nodes parent with left := child }
      else { nodes parent with right := child })
  if child = NULL then hooked
  else Function.update hooked child { hooked child with parent := parent }

variable {fuel : ℕ}

theorem removeFound_eq (hnode : node ≠ NULL) (hpar : (store.nodes node).parent ≠ NULL)
    (hcount : ¬ 1 < (store.nodes node).data.nodeCount)
    (hone : (store.nodes node).left = NULL ∨ (store.nodes node).right = NULL) :
    removeFound fuel store tree data node =
      (nodeFree { store with nodes := bypass store.nodes node } node).map fun after ↦
        (after, { tree with nodeCount := tree.nodeCount - 1 }, KERN_SUCCESS) := by
  unfold removeFound
  rw [load_of_ne hnode]
  simp only [bind_eq_bind, bind_some, if_neg hcount, replaceChild, modify_of_ne hpar]
  by_cases hleft : (store.nodes node).left = NULL
  · by_cases hright : (store.nodes node).right = NULL
    · simp [hleft, hright, bypass, onlyChild, linksOf, map_eq_bind]
    · simp [hleft, hright, bypass, onlyChild, linksOf, map_eq_bind]
  · have hright := hone.resolve_left hleft
    simp [hleft, hright, bypass, onlyChild, linksOf, map_eq_bind]

/-- How a node and its neighbours lie in memory. -/
structure Neighbours (nodes : NodeMemory) (node : Ptr) : Prop where
  parentNonnull : (nodes node).parent ≠ NULL
  parent : (nodes node).parent ≠ node
  child : onlyChild (linksOf nodes) NULL node ≠ node
  childParent : onlyChild (linksOf nodes) NULL node ≠ NULL →
    onlyChild (linksOf nodes) NULL node ≠ (nodes node).parent

theorem Represents.neighbours (hrep : Represents store.nodes tree shape)
    (hnode : node ∈ cells shape) (hroot : node ≠ tree.root) : Neighbours store.nodes node := by
  have hapart := hrep.apart hnode
  have hpar := hrep.linked.parent_mem hnode hroot.symm
  refine ⟨hrep.linked.ne_null _ hpar, hapart.parent, ?_, ?_⟩
  · unfold onlyChild
    split
    · exact hapart.right
    · exact hapart.left
  · unfold onlyChild
    split
    · exact hapart.rightParent
    · exact hapart.leftParent

section Bypass

variable {nodes : NodeMemory} (hneighbours : Neighbours nodes node)

include hneighbours

theorem bypass_self : bypass nodes node node = nodes node := by
  have hpar := hneighbours.parent.symm
  have hchild := hneighbours.child.symm
  simp only [bypass]
  split
  · rw [update_of_ne hpar]
  · rw [update_of_ne hchild, update_of_ne hpar]

theorem bypass_parent : bypass nodes node (nodes node).parent =
    if (nodes (nodes node).parent).left = node
      then { nodes (nodes node).parent with left := onlyChild (linksOf nodes) NULL node }
      else { nodes (nodes node).parent with right := onlyChild (linksOf nodes) NULL node } := by
  simp only [bypass]
  split
  · rw [update_self]
  · rename_i hchild
    rw [update_of_ne (hneighbours.childParent hchild).symm, update_self]

theorem bypass_child (hchild : onlyChild (linksOf nodes) NULL node ≠ NULL) :
    bypass nodes node (onlyChild (linksOf nodes) NULL node) =
      { nodes (onlyChild (linksOf nodes) NULL node) with parent := (nodes node).parent } := by
  simp only [bypass, if_neg hchild, update_self, update_of_ne (hneighbours.childParent hchild)]

omit hneighbours in
theorem relinked_bypass : Relinked nodes (bypass nodes node)
    [(nodes node).parent, onlyChild (linksOf nodes) NULL node] := by
  have hhooked : Relinked nodes (update nodes (nodes node).parent
      (if (nodes (nodes node).parent).left = node
        then { nodes (nodes node).parent with left := onlyChild (linksOf nodes) NULL node }
        else { nodes (nodes node).parent with right := onlyChild (linksOf nodes) NULL node }))
      [(nodes node).parent, onlyChild (linksOf nodes) NULL node] := by
    split
    · exact .update nodes (by simp) _ (nodes (nodes node).parent).right _
    · exact .update nodes (by simp) (nodes (nodes node).parent).left _ _
  simp only [bypass]
  split
  · exact hhooked
  · exact hhooked.trans (.update _ (by simp) _ _ _)

theorem bypass_detached {nodes' : NodeMemory}
    (hagree : ∀ other, other ≠ node → nodes' other = bypass nodes node other) :
    Detached (linksOf nodes) (linksOf nodes') NULL node (onlyChild (linksOf nodes) NULL node) := by
  have hpoint := hagree _ hneighbours.parent
  rw [bypass_parent hneighbours] at hpoint
  have hchild (h : onlyChild (linksOf nodes) NULL node ≠ NULL) :=
    (hagree _ hneighbours.child).trans (bypass_child hneighbours h)
  refine ⟨?_, ?_, ?_, ?_, ?_, ?_, ?_⟩
  · intro other hne hpar hother
    change other ≠ (nodes node).parent at hpar
    have h := (hagree other hne).trans
      (relinked_bypass.elsewhere other (by simp [hpar, hother]))
    simp [SameAt, linksOf, h]
  · exact (congrArg left hpoint).trans (apply_ite left ..)
  · exact (congrArg right hpoint).trans (apply_ite right ..)
  · exact (congrArg parent hpoint).trans ((apply_ite parent ..).trans (ite_self _))
  · intro h
    simp only [linksOf] at hchild ⊢
    rw [hchild h]
  · intro h
    simp only [linksOf] at hchild ⊢
    rw [hchild h]
  · intro h
    simp only [linksOf] at hchild ⊢
    rw [hchild h]

end Bypass

structure NodeReturned (store store' : Store) (node : Ptr) : Prop where
  nodes : ∀ other, other ≠ node → store'.nodes other = bypass store.nodes node other
  static : (store'.nodes node).staticPool = (store.nodes node).staticPool
  unlinked : (store.nodes node).staticPool = true →
    (store'.nodes node).left = NULL ∧ (store'.nodes node).right = NULL
  live : ∀ other, other ≠ node → other ∈ store.live → other ∈ store'.live
  lists : store'.lists = store.lists

theorem nodeFree_spec (hrep : Represents store.nodes tree shape)
    (hnode : node ∈ cells shape) (hremovable : Removable store tree node) :
    ∃ store', nodeFree { store with nodes := bypass store.nodes node } node = some store' ∧
      NodeReturned store store' node := by
  obtain ⟨hroot, -, hstaticCase⟩ := hremovable
  have hneighbours := hrep.neighbours hnode hroot
  have hnonnull := hrep.linked.ne_null node hnode
  have hself := bypass_self hneighbours
  by_cases hstatic : (store.nodes node).staticPool = true
  · -- Clearing the left link of the parent changes nothing.
    have hunhook : (modify (bypass store.nodes node) (store.nodes node).parent fun parent ↦
        if parent.right = node then { parent with right := NULL }
        else { parent with left := NULL }) = some (bypass store.nodes node) := by
      rw [modify_of_ne hneighbours.parentNonnull, some.injEq, update_eq_self_iff,
        bypass_parent hneighbours]
      rcases hstaticCase hstatic with hleft | ⟨hleft, hchildLeft, hchildRight⟩
      · rw [hleft, if_neg hnonnull.symm, if_neg hneighbours.child]
        simp only [hleft]
      · have hchild : onlyChild (linksOf store.nodes) NULL node = NULL := by
          simp [onlyChild, linksOf, hchildLeft, hchildRight]
        have hapart := hrep.apart (hrep.linked.parent_mem hnode hroot.symm)
        have hright : (store.nodes (store.nodes node).parent).right ≠ node := by
          intro h
          refine hapart.children ?_ (hleft.trans h.symm)
          exact fun h' ↦ hnonnull (hleft.symm.trans h')
        rw [if_pos hleft, hchild, if_neg hright]
    refine ⟨{ store with
      nodes := (update (bypass store.nodes node) node { store.nodes node with
        free := true, parent := NULL, left := NULL, right := NULL, key := 0xFFFF })
      poolFull := false }, ?_, ?_⟩
    · simp only [nodeFree, load_of_ne hnonnull, bind_eq_bind, bind_some, hself,
        hstatic, if_true, if_neg hneighbours.parentNonnull, hunhook, modify_of_ne hnonnull]
      rfl
    · exact {
        nodes := fun other h ↦ by simp [h]
        static := by simp
        unlinked := by simp
        live := fun _ _ h ↦ h
        lists := rfl }
  · refine ⟨{ store with
      nodes := bypass store.nodes node, live := store.live.erase node }, ?_, ?_⟩
    · simp [nodeFree, hnonnull, hself, hstatic]
    · exact {
        nodes := fun _ _ ↦ rfl
        static := congrArg staticPool hself
        unlinked := fun h ↦ absurd h hstatic
        live := fun _ hne h ↦ (mem_erase_of_ne hne).mpr h
        lists := rfl }

section

variable (hcoh : Coherent pools store tree shape bucket)
  (hentries : Entries store shape bucket multimap) (hnode : node ∈ cells shape)
include hcoh hentries hnode

theorem removeFound_node (hcount : (store.nodes node).data.nodeCount = 1)
    (hremovable : Removable store tree node) (fuel : ℕ) (data : Ptr) :
    ∃ store', removeFound fuel store tree data node =
        some (store', { tree with nodeCount := tree.nodeCount - 1 }, KERN_SUCCESS) ∧
      Holds pools store' { tree with nodeCount := tree.nodeCount - 1 }
        (update multimap (keyOf store.nodes node) []) := by
  obtain ⟨hroot, hone, -⟩ := id hremovable
  have hordered := hcoh.represents.ordered
  have hlinked := hcoh.represents.linked
  have hneighbours := hcoh.represents.neighbours hnode hroot
  have hnonnull := hlinked.ne_null node hnode
  obtain ⟨store', hfree, hret⟩ := nodeFree_spec hcoh.represents hnode hremovable
  have hsearch := hordered.search_eq_some hnode
  have hshape : AtMostOneChild (keyOf store.nodes) (keyOf store.nodes node) shape :=
    hlinked.atMostOneChild hsearch hone
  let shape' := detach (keyOf store.nodes) (keyOf store.nodes node) shape
  have hcells : ∀ other, other ∈ cells shape' ↔ other ∈ cells shape ∧ other ≠ node := by
    intro other
    rw [hordered.mem_detach hshape]
    refine and_congr_right fun hother ↦ not_congr ⟨fun h ↦ ?_, fun h ↦ h ▸ rfl⟩
    exact hordered.eq_of_key_eq hother hnode h
  have hbypassed := @relinked_bypass node store.nodes
  have hkeys : ∀ other ∈ cells shape', keyOf store'.nodes other = keyOf store.nodes other := by
    intro other hother
    exact (congrArg key (hret.nodes other ((hcells other).mp hother).2)).trans
      (hbypassed.key other)
  refine ⟨store', ?_, shape', bucket, ⟨⟨?_, ?_, ?_⟩, ⟨hcoh.pooled.nonnull, ?_, ?_, ?_⟩, ?_,
    ?_, ?_⟩, ?_, ?_⟩
  · rw [removeFound_eq hnonnull hneighbours.parentNonnull (by omega) hone, hfree]
    rfl
  · have h := hlinked.detach hordered (fun h ↦ hlinked.ne_null NULL h rfl) hsearch hshape
      (bypass_detached hneighbours hret.nodes)
    rwa [detachLink, if_neg hroot.symm] at h
  · exact (hordered.detach hshape).congr hkeys
  · have h := numNodes_detach hsearch hshape
    have hcount := hcoh.represents.count
    simp only [shape']
    omega
  · intro other hother
    by_cases h : other = node
    · subst h
      exact hret.static.trans (hcoh.pooled.static other hother)
    · rw [hret.nodes other h, hbypassed.staticPool]
      exact hcoh.pooled.static other hother
  · intro other hother hfree
    by_cases h : other = node
    · subst h
      exact hret.unlinked (hcoh.pooled.static other hother)
    · rw [hret.nodes other h] at hfree ⊢
      rw [hbypassed.free] at hfree
      -- The neighbours whose links changed are in use, so they are not free.
      have hnotMem : other ∉ cells shape := fun hmem ↦
        hcoh.pooled.not_owned hother hfree (hcoh.pooled.owned other hmem)
      have hnonnull : other ≠ NULL := ne_of_mem_of_not_mem hother hcoh.pooled.nonnull
      rw [hbypassed.elsewhere]
      · exact hcoh.pooled.unlinked other hother hfree
      · rintro (_ | ⟨_, _ | ⟨_, ⟨⟩⟩⟩)
        · exact hnotMem (hlinked.parent_mem hnode hroot.symm)
        · exact hnotMem ((hlinked.onlyChild_mem hnode).resolve_left hnonnull)
  · intro other hother
    obtain ⟨hmem, hne⟩ := (hcells other).mp hother
    have howned := hcoh.pooled.owned other hmem
    unfold Owned at howned ⊢
    rw [hret.nodes other hne, hbypassed.staticPool, hbypassed.free]
    split
    · rename_i h
      rwa [if_pos h] at howned
    · rename_i h
      rw [if_neg h] at howned
      exact hret.live other hne howned
  · rw [hret.lists]
    exact hcoh.ready
  · intro _
    rw [hret.lists]
    exact hcoh.setup_of_mem hnode
  · intro _
    obtain ⟨free, hbuckets⟩ := hcoh.exists_buckets hnode
    refine ⟨free, ?_, fun other hother ↦ hbuckets.nonempty other ((hcells other).mp hother).1⟩
    rw [hret.lists]
    refine hbuckets.family.mono _ (fun other hother ↦ ((hcells other).mp hother).1) ?_
    intro other hother
    rw [hret.nodes other ((hcells other).mp hother).2, hbypassed.data]
  · intro other hother
    obtain ⟨hmem, hne⟩ := (hcells other).mp hother
    have hkey : keyOf store.nodes other ≠ keyOf store.nodes node := fun h ↦
      hne (hordered.eq_of_key_eq hmem hnode h)
    rw [hkeys other hother, update_of_ne hkey, hret.lists]
    exact hentries.present other hmem
  · intro other hnone
    by_cases h : other = keyOf store.nodes node
    · rw [h, update_self]
    · rw [update_of_ne h]
      refine hentries.absent other fun cell hcell hkey ↦ ?_
      have hcell' : cell ∈ cells shape' := by
        refine (hcells cell).mpr ⟨hcell, ?_⟩
        rintro rfl
        exact h hkey.symm
      exact hnone cell hcell' ((hkeys cell hcell').trans hkey)

/-- The code can remove the entry: it does not meet a stale tail in the bucket, and the entry is
one of several or its node is removable. -/
def RemovalFits (store : Store) (tree : Tree) (node data : Ptr) : Prop :=
  ((store.nodes node).data.nodeCount = 2 →
      (store.lists.nodes (store.nodes node).data.head).data = data →
      SinglyLinkedList.TailUsable (store.lists, (store.nodes node).data)) ∧
    (2 ≤ (store.nodes node).data.nodeCount ∨ Removable store tree node)

theorem Coherent.bucket_count :
    (store.nodes node).data.nodeCount = (multimap (keyOf store.nodes node)).length := by
  obtain ⟨free, hbuckets⟩ := hcoh.exists_buckets hnode
  have hlist := hbuckets.family.coherent node hnode
  rw [hentries.present node hnode, contents, length_map]
  exact hlist.represents.count

theorem Coherent.bucket_head :
    (store.nodes node).data.head ≠ NULL ∧
      (multimap (keyOf store.nodes node)).head? =
        some (store.lists.nodes (store.nodes node).data.head).data := by
  obtain ⟨free, hbuckets⟩ := hcoh.exists_buckets hnode
  have hlist := hbuckets.family.coherent node hnode
  have hcount : (store.nodes node).data.nodeCount ≠ 0 := by
    rw [hlist.represents.count]
    simpa using hbuckets.nonempty node hnode
  obtain ⟨rest, hcells⟩ := hlist.represents.exists_cons hcount
  refine ⟨hlist.represents.head_ne_null hcount, ?_⟩
  rw [hentries.present node hnode, hcells]
  rfl

theorem Coherent.removeEntry
    (hfits : RemovalFits store tree node data) (hcount : 2 ≤ (store.nodes node).data.nodeCount)
    (hdata : data ∈ multimap (keyOf store.nodes node))
    (hfuel : (multimap (keyOf store.nodes node)).length < fuel) :
    ∃ lists' list', removeNodeByAddress fuel store.lists (store.nodes node).data
        data = some (lists', list', SinglyLinkedList.KERN_SUCCESS) ∧
      Holds pools { store with
          nodes := (update store.nodes node { store.nodes node with data := list' })
          lists := lists' } tree
        (update multimap (keyOf store.nodes node)
          ((multimap (keyOf store.nodes node)).erase data)) := by
  obtain ⟨free, hbuckets⟩ := hcoh.exists_buckets hnode
  have hlist := hbuckets.family.coherent node hnode
  have hlen := hcoh.bucket_count hentries hnode
  have hpresent := hentries.present node hnode
  have hcells : (bucket node).length = (multimap (keyOf store.nodes node)).length := by
    rw [hpresent, contents, length_map]
  have htail : (bucket node).length = 2 → (contents store.lists.nodes (bucket node)).head? =
      some data → SinglyLinkedList.TailLast (store.nodes node).data (bucket node) := by
    intro htwo hhead
    apply SinglyLinkedList.TailUsable.tailLast hlist
    apply hfits.1 (by omega)
    rw [← hpresent, (hcoh.bucket_head hentries hnode).2] at hhead
    exact Option.some.inj hhead
  obtain ⟨lists', list', hremove, hbecomes⟩ := removeNodeByAddress_spec hlist
    (hbuckets.nonempty node hnode) data htail (show (bucket node).length < fuel by omega) NULL
  rw [← hpresent] at hremove hbecomes
  rw [if_pos hdata] at hremove
  refine ⟨lists', list', hremove, (hcoh.changeBucketWith hentries hnode hbuckets
    hbuckets.null_notMem hbecomes ?_ fun _ _ ↦ trivial).holds⟩
  intro hnil
  have h := length_erase_of_mem hdata
  rw [hnil, length_nil] at h
  omega

theorem removeFound_spec (hfits : RemovalFits store tree node data)
    (hdata : data ∈ multimap (keyOf store.nodes node))
    (hfuel : (multimap (keyOf store.nodes node)).length < fuel) :
    ∃ store' tree', removeFound fuel store tree data node = some (store', tree', KERN_SUCCESS) ∧
      Holds pools store' tree' (update multimap (keyOf store.nodes node)
        ((multimap (keyOf store.nodes node)).erase data)) ∧
      tree'.nodeCount ≤ tree.nodeCount := by
  by_cases hcount : 2 ≤ (store.nodes node).data.nodeCount
  · obtain ⟨lists', list', hremove, hafter⟩ :=
      hcoh.removeEntry hentries hnode hfits hcount hdata hfuel
    refine ⟨_, tree, ?_, hafter, le_rfl⟩
    have hmany : 1 < (store.nodes node).data.nodeCount := hcount
    simp [removeFound, hcoh.represents.linked.ne_null node hnode, hmany, hremove]
  · have hlen := hcoh.bucket_count hentries hnode
    have hpos := length_pos_of_mem hdata
    obtain ⟨entry, hentry⟩ := length_eq_one_iff.mp
      (show (multimap (keyOf store.nodes node)).length = 1 by omega)
    have herase : (multimap (keyOf store.nodes node)).erase data = [] := by
      rw [hentry] at hdata ⊢
      simp [mem_singleton.mp hdata]
    obtain ⟨store', hremove, hafter⟩ := removeFound_node hcoh hentries hnode (by omega)
      (hfits.2.resolve_left hcount) fuel data
    rw [herase]
    exact ⟨store', _, hremove, hafter, Nat.sub_le ..⟩

/-- **Removal.** Whether the code looks for the node itself or is handed it, it takes the entry
out and leaves the others. -/
theorem removeBinaryTree_spec (hfits : RemovalFits store tree node data)
    (hdata : data ∈ multimap (keyOf store.nodes node)) (hcount : tree.nodeCount < fuel)
    (hfuel : (multimap (keyOf store.nodes node)).length < fuel) {cur : Ptr}
    (hcur : cur = NULL ∨ cur = node) :
    ∃ store' tree', removeBinaryTree fuel store tree (keyOf store.nodes node) data cur =
        some (store', tree', KERN_SUCCESS) ∧
      Holds pools store' tree' (update multimap (keyOf store.nodes node)
        ((multimap (keyOf store.nodes node)).erase data)) ∧
      tree'.nodeCount ≤ tree.nodeCount := by
  have hlinked := hcoh.represents.linked
  have hordered := hcoh.represents.ordered
  have hshape : shape ≠ .nil := by
    rintro rfl
    cases hnode
  have hnonnull := hlinked.ne_null node hnode
  have hroot : tree.root ≠ NULL := fun h ↦ hshape (hlinked.link_eq_null.mp h)
  have hstart : (if cur = NULL then tree.root else cur) ≠ NULL := by
    rcases hcur with rfl | rfl
    · simpa using hroot
    · simp [hnonnull]
  have hrootMem := hlinked.link_mem.resolve_left hroot
  unfold removeBinaryTree
  rw [if_neg hstart, load_of_ne hroot]
  simp only [bind_eq_bind, bind_some]
  by_cases hkey : keyOf store.nodes node = (store.nodes tree.root).key
  · -- The entry is in the root's bucket, which must not become empty.
    obtain rfl : node = tree.root := hordered.eq_of_key_eq hnode hrootMem hkey
    have hmany := hfits.2.resolve_right fun h ↦ h.1 rfl
    obtain ⟨lists', list', hremove, hafter⟩ :=
      hcoh.removeEntry hentries hnode hfits hmany hdata hfuel
    have hstart' : (if cur = NULL then tree.root else cur) = tree.root := by
      rcases hcur with rfl | rfl <;> simp
    refine ⟨_, tree, ?_, hafter, le_rfl⟩
    rw [if_pos hkey, hstart', load_of_ne hroot]
    simp [hremove, hroot, SinglyLinkedList.KERN_SUCCESS, SinglyLinkedList.NODE_NOT_FOUND]
  · rw [if_neg hkey]
    have hloop : removeLoop fuel (keyOf store.nodes node) data fuel store tree
        (if cur = NULL then tree.root else cur) = removeFound fuel store tree data node := by
      rcases hcur with rfl | rfl
      · rw [if_pos rfl, removeLoop_eq fuel _ data hcoh.represents hshape
          (hcoh.represents.count ▸ hcount.le), hordered.search_eq_some hnode]
        rfl
      · obtain ⟨fuel, rfl⟩ : ∃ k, fuel = k + 1 := ⟨fuel - 1, by omega⟩
        rw [if_neg hnonnull, removeLoop, load_of_ne hnonnull]
        simp [keyOf]
    rw [hloop]
    exact removeFound_spec hcoh hentries hnode hfits hdata hfuel

end

end DionysOS.DataStructures.BinaryTree
