import DionysOS.DataStructures.SinglyLinkedListInvariant

/-!
# The singly linked list refines a sequence

Each operation is specified against the pure list operation of the same name. The specifications
show where the code looks at `list->tail`: `insert_tail` always, `remove_tail` from two nodes on,
and `remove_head` (also when reached through `remove_node_by_address`) with exactly two nodes.
`remove_node_by_address` cuts a node out without updating the tail, so after it the tail may point
at a released node.

`init_refines_sequence` is the refinement of whole runs under exactly these conditions; the
failing run after it appends to an empty list.
-/

namespace DionysOS.DataStructures.SinglyLinkedList

open Foundation LinkedChain PartialMachine List Function

variable {pool cells free : List Ptr} {state : NodeStore} {list : SinglyLinkedList}
  {nodes : NodeMemory} {fresh : Ptr}

theorem TailLast.exists_last (hrep : Represents nodes list cells)
    (htail : TailLast list cells) :
    ∃ front last, cells = front ++ [last] ∧
      ((list.tail = NULL ∧ list.nodeCount = 1 ∧ list.head = last) ∨
        (list.tail ≠ NULL ∧ list.tail = last)) := by
  rcases htail with ⟨hnull, hlen⟩ | hlast
  · obtain ⟨cell, rfl⟩ := length_eq_one_iff.mp hlen
    exact ⟨[], cell, rfl, .inl ⟨hnull, hrep.count, hrep.segment.head_eq⟩⟩
  · obtain ⟨front, rfl⟩ := getLast?_eq_some_iff.mp hlast
    refine ⟨front, list.tail, rfl, .inr ⟨fun hnull ↦ hrep.nonnull ?_, rfl⟩⟩
    simp [hnull]

variable {after : NodeStore} {expected front sequence : List Ptr} {list' : SinglyLinkedList}
  {property : SinglyLinkedList → List Ptr → Prop} {prev node : Ptr} {fuel budget : ℕ}

theorem BecomesWith.mono {property' : SinglyLinkedList → List Ptr → Prop}
    (hbecomes : BecomesWith property pool state cells free fresh after list' expected)
    (himplies : ∀ list cells, property list cells → property' list cells) :
    BecomesWith property' pool state cells free fresh after list' expected := by
  obtain ⟨cells', free', hcoh, hcontents, hconfined, hproperty⟩ := hbecomes
  exact ⟨cells', free', hcoh, hcontents, hconfined, himplies _ _ hproperty⟩

theorem confined_refl (state : NodeStore) (cells free : List Ptr) (fresh : Ptr) :
    Confined state state cells free cells free fresh :=
  ⟨fun _ _ _ _ ↦ rfl, fun _ _ h ↦ h, fun _ h ↦ .inl h, fun _ h ↦ .inr h, rfl⟩

theorem becomes_refl (hcoh : Coherent pool state list cells free) (fresh : Ptr) :
    Becomes pool state cells free fresh state list (contents state.nodes cells) :=
  ⟨cells, free, hcoh, rfl, confined_refl state cells free fresh, trivial⟩

theorem retargetTail_spec {tail : Ptr} :
    ∀ {fuel : ℕ} {nodes : NodeMemory} {node : Ptr},
      Segment (nextOf nodes) node (front ++ [prev]) tail → NULL ∉ front ++ [prev] →
      tail ∉ front ++ [prev] → front.length + 2 ≤ fuel →
      retargetTail fuel nodes tail node =
        some (update nodes prev { nodes prev with next := NULL }, prev) := by
  induction front with
  | nil =>
    intro fuel nodes node hseg hnull htail hfuel
    obtain ⟨rfl, hnext⟩ := hseg
    obtain ⟨fuel, rfl⟩ : ∃ k, fuel = k + 2 := ⟨fuel - 2, by simp at hfuel; omega⟩
    have hnode : node ≠ NULL := fun h ↦ hnull (by simp [h])
    have hnext : (nodes node).next = tail := hnext
    simp [retargetTail, hnode, hnext]
  | cons head rest ih =>
    intro fuel nodes node hseg hnull htail hfuel
    obtain ⟨rfl, hnext⟩ := hseg
    obtain ⟨fuel, rfl⟩ : ∃ k, fuel = k + 1 := ⟨fuel - 1, by simp at hfuel; omega⟩
    have hnode : node ≠ NULL := fun h ↦ hnull (by simp [h])
    have hnextNe : (nodes node).next ≠ tail := by
      rintro rfl
      cases rest with
      | nil => exact htail (by simp [show (nodes node).next = prev from hnext.1])
      | cons second rest => exact htail (by simp [show (nodes node).next = second from hnext.1])
    rw [retargetTail, if_neg hnode, if_neg hnextNe]
    refine ih hnext ?_ ?_ (by simp only [length_cons] at hfuel; omega)
    · exact fun h ↦ hnull (mem_cons_of_mem _ h)
    · exact fun h ↦ htail (mem_cons_of_mem _ h)

/-- Cutting `node` out from behind `prev`, as `singly_linked_list_remove_node_by_address` does:
`list->tail` is not looked at. -/
theorem unlink_spec {back : List Ptr}
    (hcoh : Coherent pool state list (front ++ prev :: node :: back) free) (fresh : Ptr) :
    ∃ after, nodeFree { state with nodes := (update state.nodes prev
          { state.nodes prev with next := (state.nodes node).next }) } node = some after ∧
      Becomes pool state (front ++ prev :: node :: back) free fresh after
        { list with nodeCount := list.nodeCount - 1 }
        (contents state.nodes (front ++ prev :: back)) := by
  have hnodup := hcoh.represents.nodup
  simp only [nodup_append, nodup_cons, mem_cons, not_or] at hnodup
  obtain ⟨-, ⟨⟨-, hprevBack⟩, -⟩, hfront⟩ := hnodup
  obtain ⟨mid, hseg, hprev, -, hback⟩ :=
    segment_append.mp hcoh.represents.segment
  refine hcoh.release ((Relinked.refl _ _).setNext (by simp) (state.nodes node).next)
    { list with nodeCount := list.nodeCount - 1 } ?_ ?_ rfl hcoh.ordinary fresh
  · have hperm : (front ++ [prev]) ++ node :: back ~ _ := perm_middle
    simpa using hperm
  · rw [nextOf_update]
    refine segment_append.mpr ⟨mid, hseg.update_of_notMem fun h ↦
      hfront prev h prev (.inl rfl) rfl, hprev, ?_⟩
    rw [update_self]
    exact hback.update_of_notMem hprevBack

theorem removeAfter_spec (data fresh : Ptr) {rest : List Ptr} :
    ∀ {front : List Ptr} {prev : Ptr} (fuel : ℕ),
      Coherent pool state list (front ++ prev :: rest) free → rest.length < fuel →
      ∃ after list', removeAfter data fuel state list prev (state.nodes prev).next =
          some (after, list',
            if data ∈ contents state.nodes rest then KERN_SUCCESS else NODE_NOT_FOUND) ∧
        Becomes pool state (front ++ prev :: rest) free fresh after list'
          (contents state.nodes (front ++ [prev]) ++ (contents state.nodes rest).erase data) := by
  induction rest with
  | nil =>
    intro front prev fuel hcoh hfuel
    obtain ⟨fuel, rfl⟩ : ∃ k, fuel = k + 1 := ⟨fuel - 1, by omega⟩
    have hnext : (state.nodes prev).next = NULL := hcoh.represents.segment.next_last
    refine ⟨state, list, ?_, ?_⟩
    · simp [removeAfter, hnext, contents]
    · simpa [contents] using becomes_refl hcoh fresh
  | cons node back ih =>
    intro front prev fuel hcoh hfuel
    obtain ⟨fuel, rfl⟩ : ∃ k, fuel = k + 1 := ⟨fuel - 1, by omega⟩
    have hnext : (state.nodes prev).next = node := by
      obtain ⟨mid, -, -, hnode, -⟩ := segment_append.mp hcoh.represents.segment
      exact hnode
    have hprevNonnull : prev ≠ NULL := fun h ↦ hcoh.represents.nonnull (by simp [h])
    have hne : node ≠ NULL := fun h ↦ hcoh.represents.nonnull (by simp [h])
    by_cases hdata : (state.nodes node).data = data
    · obtain ⟨after, hfree, hbecomes⟩ := unlink_spec hcoh fresh
      refine ⟨after, { list with nodeCount := list.nodeCount - 1 }, ?_, ?_⟩
      · simp [removeAfter, hnext, hne, hdata, hprevNonnull, hfree, contents]
      · simpa [contents, hdata] using hbecomes
    · have hcoh' : Coherent pool state list ((front ++ [prev]) ++ node :: back) free := by
        simpa using hcoh
      obtain ⟨after, list', hloop, hbecomes⟩ := ih fuel hcoh'
        (by simp only [length_cons] at hfuel; omega)
      refine ⟨after, list', ?_, ?_⟩
      · rw [removeAfter, hnext, if_neg hne, if_neg hdata, hloop]
        simp [contents, Ne.symm hdata]
      · simpa [contents, erase_cons, hdata] using hbecomes

section

variable (hcoh : Coherent pool state list cells free)
include hcoh

theorem insertHead_spec (hfresh : Fresh pool state fresh) (data : Ptr) :
    ∃ after list', insertHead state list data fresh = some (after, list') ∧
      BecomesWith (fun list' cells' ↦ cells = [] → TailLast list' cells') pool state cells free fresh
        after list' (data :: contents state.nodes cells) := by
  obtain ⟨taken, node, free', halloc, htaken⟩ := nodeAlloc_spec hcoh.pooled hfresh
  have hnotMem : node ∉ cells := hcoh.taken_notMem hfresh htaken
  have hne : ∀ cell ∈ cells, cell ≠ node := fun cell hcell h ↦ hnotMem (h ▸ hcell)
  have hrep : Represents taken.nodes list cells :=
    hcoh.represents.congr fun cell hcell ↦ by rw [htaken.nodes cell (hne cell hcell)]
  obtain ⟨list', hlink, hlinked, hflag, htail'⟩ :=
    linkHead_spec hrep htaken.nonnull hnotMem data
  obtain ⟨hafter, hcells, hnode, hconfined⟩ := hcoh.adopt hfresh htaken
    (.join ..) hlinked (hflag.trans hcoh.ordinary) (fun cell hcell ↦ mem_cons.mp hcell)
  refine ⟨_, list', ?_, node :: cells, free', hafter, ?_, hconfined, ?_⟩
  · simp [insertHead, newNode, hcoh.ordinary, halloc, hlink]
  · simp only [contents, map_cons, cons.injEq]
    exact ⟨hnode, map_congr_left hcells⟩
  · rintro rfl
    exact .inl ⟨htail', rfl⟩

theorem insertTail_spec
    (hfresh : Fresh pool state fresh) (htail : TailLast list cells) (data : Ptr) :
    ∃ after list', insertTail state list data fresh = some (after, list') ∧
      BecomesWith TailLast pool state cells free fresh after list'
        (contents state.nodes cells ++ [data]) := by
  obtain ⟨taken, node, free', halloc, htaken⟩ := nodeAlloc_spec hcoh.pooled hfresh
  have hnotMem : node ∉ cells := hcoh.taken_notMem hfresh htaken
  have hne : ∀ cell ∈ cells, cell ≠ node := fun cell hcell h ↦ hnotMem (h ▸ hcell)
  obtain ⟨front, last, rfl, hcase⟩ := htail.exists_last hcoh.represents
  have hlastNonnull : last ≠ NULL := fun h ↦ hcoh.represents.nonnull (by simp [h])
  have hlastFront : last ∉ front := by
    have hnodup := hcoh.represents.nodup
    rw [nodup_append] at hnodup
    exact fun h ↦ hnodup.2.2 last h last (by simp) rfl
  let written := update taken.nodes node { taken.nodes node with data := data, next := NULL }
  let linked := update written last { written last with next := node }
  have hrelinked : Relinked
      (update taken.nodes node { taken.nodes node with data := data }) linked
      (node :: (front ++ [last])) := by
    exact (Relinked.join ..).setNext (by simp) node
  have hlinked : Represents linked
      { list with tail := node, nodeCount := list.nodeCount + 1 } (front ++ [last] ++ [node]) := by
    refine ⟨segment_append.mpr ⟨node, ?_, rfl, ?_⟩, ?_, ?_⟩
    · have htakenSegment : Segment (nextOf taken.nodes) list.head (front ++ [last]) NULL :=
        hcoh.represents.segment.congr fun cell hcell ↦ by
          simp [nextOf, htaken.nodes cell (hne cell hcell)]
      simp only [linked, nextOf_update, written]
      exact (htakenSegment.update_of_notMem hnotMem).update_last hlastFront
    · have h : node ≠ last := fun h ↦ hne last (by simp) h.symm
      simp [nextOf, linked, written, h]
    · have hnull := hcoh.represents.nonnull
      have hnode := htaken.nonnull
      simp only [mem_append, mem_singleton, not_or] at hnull ⊢
      exact ⟨hnull, fun h ↦ hnode h.symm⟩
    · simp [hcoh.represents.count]
  obtain ⟨hafter, hcells, hnode, hconfined⟩ := hcoh.adopt hfresh htaken hrelinked hlinked
    hcoh.ordinary fun cell hcell ↦ mem_cons.mp ((perm_append_singleton ..).subset hcell)
  refine ⟨_, _, ?_, front ++ [last] ++ [node], free', hafter, ?_, hconfined, .inr (by simp)⟩
  · rcases hcase with ⟨hnull, hone, hhead⟩ | ⟨hnull, rfl⟩
    · subst hhead
      simp [insertTail, newNode, hcoh.ordinary, halloc, htaken.nonnull, hnull, hone,
        hlastNonnull, linked, written]
    · simp [insertTail, newNode, hcoh.ordinary, halloc, htaken.nonnull, hnull, linked, written]
  · simp only [contents, map_append, map_cons, map_nil]
    rw [map_congr_left (l := front) fun cell hcell ↦ hcells cell (by simp [hcell]),
      hcells last (by simp), hnode]

theorem removeHead_spec (htail : cells.length = 2 → TailLast list cells) (fresh : Ptr) :
    ∃ after list', removeHead state list =
        some (after, list', (contents state.nodes cells).headD NULL) ∧
      Becomes pool state cells free fresh after list' (contents state.nodes cells).tail := by
  have hcount := hcoh.represents.count
  cases cells with
  | nil =>
    refine ⟨state, list, ?_, becomes_refl hcoh fresh⟩
    simp [removeHead, hcount, contents]
  | cons head rest =>
    obtain rfl : list.head = head := hcoh.represents.segment.head_eq
    have hhead : list.head ≠ NULL := hcoh.represents.head_ne_null (by simp [hcount])
    rcases lt_trichotomy rest.length 1 with hlen | hlen | hlen
    · -- the only node goes
      obtain rfl : rest = [] := length_eq_zero_iff.mp (by omega)
      obtain ⟨after, hfree, hbecomes⟩ := hcoh.release (Relinked.refl _ _)
        ⟨NULL, NULL, 0, false⟩ (.refl _) rfl (by simp [hcount]) rfl fresh
      refine ⟨after, _, ?_, hbecomes⟩
      simp [removeHead, hcount, hhead, hcoh.ordinary, hfree, contents]
    · -- the second of two nodes becomes the head through `list->tail`
      obtain ⟨last, rfl⟩ := length_eq_one_iff.mp hlen
      obtain rfl : last = list.tail := by
        rcases htail rfl with ⟨-, h⟩ | h
        · simp at h
        · simpa using h
      have hlast : list.tail ≠ NULL := fun h ↦ hcoh.represents.nonnull (by simp [h])
      have hne : list.head ≠ list.tail := by simpa using hcoh.represents.nodup
      let cut := update state.nodes list.tail { state.nodes list.tail with next := NULL }
      have hrelinked : Relinked state.nodes
          (update cut list.head { cut list.head with next := NULL })
          [list.head, list.tail] :=
        ((Relinked.refl _ _).setNext (by simp) NULL).setNext (by simp) NULL
      obtain ⟨after, hfree, hbecomes⟩ := hcoh.release hrelinked
        ⟨list.tail, NULL, 1, false⟩ (.refl _) (by simp [nextOf, cut, hne.symm])
        (by simp [hcount]) rfl fresh
      refine ⟨after, _, ?_, hbecomes⟩
      simp only [cut] at hfree
      simp [removeHead, hcount, hhead, hcoh.ordinary, hlast, hfree, contents]
    · obtain ⟨after, hfree, hbecomes⟩ := hcoh.release (Relinked.refl _ _)
        ⟨(state.nodes list.head).next, list.tail, rest.length, false⟩ (.refl _)
        hcoh.represents.segment.2 (by simp [hcount]) rfl fresh
      refine ⟨after, _, ?_, hbecomes⟩
      have hone : rest.length ≠ 0 := by omega
      have htwo : rest.length ≠ 1 := by omega
      simp [removeHead, hcount, hhead, hcoh.ordinary, hone, htwo, hfree, contents]

theorem removeTail_spec
    (htail : 2 ≤ cells.length → TailLast list cells) (hfuel : cells.length < fuel) (fresh : Ptr) :
    ∃ after list', removeTail fuel state list =
        some (after, list', (contents state.nodes cells).getLastD NULL) ∧
      Becomes pool state cells free fresh after list' (contents state.nodes cells).dropLast := by
  have hcount := hcoh.represents.count
  rcases lt_trichotomy cells.length 1 with hlen | hlen | hlen
  · obtain rfl : cells = [] := length_eq_zero_iff.mp (by omega)
    refine ⟨state, list, ?_, becomes_refl hcoh fresh⟩
    simp [removeTail, hcount, contents]
  · obtain ⟨head, rfl⟩ := length_eq_one_iff.mp hlen
    obtain rfl : list.head = head := hcoh.represents.segment.head_eq
    have hhead : list.head ≠ NULL := hcoh.represents.head_ne_null (by simp [hcount])
    obtain ⟨after, hfree, hbecomes⟩ := hcoh.release
      ((Relinked.refl _ _).setNext mem_cons_self NULL) ⟨NULL, NULL, 0, false⟩ (.refl _) rfl
      (by simp [hcount]) rfl fresh
    refine ⟨after, _, ?_, hbecomes⟩
    simp [removeTail, hcount, hhead, hcoh.ordinary, hfree, contents]
  · -- the list is `front`, the node `prev` that becomes the tail, and the old tail
    obtain ⟨short, hshort⟩ : ∃ short, cells = short ++ [list.tail] := by
      rcases htail hlen with ⟨-, h⟩ | h
      · omega
      · exact getLast?_eq_some_iff.mp h
    obtain ⟨front, prev, rfl⟩ : ∃ front prev, short = front ++ [prev] := by
      refine eq_nil_or_concat' short |>.resolve_left ?_
      rintro rfl
      simp [hshort] at hlen
    subst hshort
    have hnodup := hcoh.represents.nodup
    have hnull := hcoh.represents.nonnull
    have htailNonnull : list.tail ≠ NULL := fun h ↦ hnull (by simp [h])
    have htailNotMem : list.tail ∉ front ++ [prev] := by
      rw [nodup_append] at hnodup
      exact fun h ↦ hnodup.2.2 _ h _ (by simp) rfl
    have hprevNotMem : prev ∉ front := by
      rw [nodup_append, nodup_append] at hnodup
      exact fun h ↦ hnodup.1.2.2 _ h _ (by simp) rfl
    have hnullShort : NULL ∉ front ++ [prev] := fun h ↦ hnull (mem_append_left _ h)
    obtain ⟨mid, hseg, hlast⟩ := segment_append.mp hcoh.represents.segment
    obtain rfl : mid = list.tail := hlast.1
    have hloop : retargetTail fuel state.nodes list.tail list.head = _ :=
      retargetTail_spec hseg hnullShort htailNotMem (by simp at hfuel; omega)
    let cut := update state.nodes prev { state.nodes prev with next := NULL }
    have hrelinked : Relinked state.nodes
        (update cut list.tail { cut list.tail with next := NULL })
        (front ++ [prev] ++ [list.tail]) :=
      ((Relinked.refl _ _).setNext (by simp) NULL).setNext (by simp) NULL
    have hcut : Segment (nextOf (update cut list.tail { cut list.tail with next := NULL }))
        list.head (front ++ [prev]) NULL := by
      rw [nextOf_update]
      refine Segment.update_of_notMem ?_ htailNotMem
      simp only [cut, nextOf_update]
      exact hseg.update_last hprevNotMem
    obtain ⟨after, hfree, hbecomes⟩ := hcoh.release hrelinked
      ⟨list.head, prev, (front ++ [prev]).length, false⟩ (perm_append_singleton ..) hcut
      (by simp [hcount]) rfl fresh
    have hshort : contents state.nodes (front ++ [prev]) =
        (contents state.nodes (front ++ [prev] ++ [list.tail])).dropLast := by
      simp [contents, dropLast_append_of_ne_nil]
    refine ⟨after, _, ?_, hshort ▸ hbecomes⟩
    simp only [cut] at hfree
    simp [removeTail, hcount, hloop, htailNonnull, hcoh.ordinary, hfree, contents]

theorem removeNodeByAddress_spec (hnonempty : cells ≠ []) (data : Ptr)
    (htail : cells.length = 2 → (contents state.nodes cells).head? = some data →
      TailLast list cells) (hfuel : cells.length < fuel) (fresh : Ptr) :
    ∃ after list', removeNodeByAddress fuel state list data =
        some (after, list',
          if data ∈ contents state.nodes cells then KERN_SUCCESS else NODE_NOT_FOUND) ∧
      Becomes pool state cells free fresh after list'
        ((contents state.nodes cells).erase data) := by
  obtain ⟨head, rest, rfl⟩ := exists_cons_of_ne_nil hnonempty
  obtain rfl : list.head = head := hcoh.represents.segment.head_eq
  have hhead : list.head ≠ NULL := fun h ↦ hcoh.represents.nonnull (by simp [h])
  by_cases hdata : (state.nodes list.head).data = data
  · obtain ⟨after, list', hremove, hbecomes⟩ := removeHead_spec hcoh
      (fun hlen ↦ htail hlen (by simp [contents, hdata])) fresh
    refine ⟨after, list', ?_, ?_⟩
    · simp [removeNodeByAddress, hhead, hdata, hremove, contents]
    · simpa [contents, hdata] using hbecomes
  · have hcoh' : Coherent pool state list ([] ++ list.head :: rest) free := hcoh
    obtain ⟨after, list', hloop, hbecomes⟩ := removeAfter_spec data fresh fuel hcoh'
      (by simp only [length_cons] at hfuel; omega)
    refine ⟨after, list', ?_, ?_⟩
    · simp only [removeNodeByAddress, load_of_ne hhead, Option.bind_eq_bind, Option.bind_some,
        if_neg hdata, hloop]
      simp [contents, Ne.symm hdata]
    · simpa [contents, erase_cons, hdata] using hbecomes

end

/-- The state of the module before a list is initialised: the static pool is an array of distinct
nodes, and either it is not set up yet or its unused nodes are in `free_nodes`. -/
structure Ready (pool : List Ptr) (state : NodeStore) : Prop where
  nodup : pool.Nodup
  nonnull : NULL ∉ pool
  pooled : state.staticPoolSetup = true → ∃ free, Pooled pool state free

theorem addPoolNode_spec (hpooled : Pooled pool state free) (hne : node ≠ NULL)
    (hnotFree : node ∉ free) (hpool : node ∈ pool) :
    ∃ after, addPoolNode state node = some after ∧ Pooled pool after (node :: free) ∧
      after.kallocLive = state.kallocLive ∧ after.staticPoolSetup = state.staticPoolSetup := by
  obtain ⟨nodes', freeNodes', hlink, hpooled', -⟩ := linkHead_freeNodes hpooled hne hnotFree
    hpool { state.nodes node with staticPoolNode := true, staticPoolFreeNode := true } rfl
  refine ⟨{ state with nodes := nodes', freeNodes := freeNodes' }, ?_, hpooled', rfl, rfl⟩
  simp [addPoolNode, hne, hlink]

theorem foldlM_addPoolNode {added : List Ptr} :
    ∀ {state : NodeStore} {free : List Ptr}, Pooled pool state free → added.Nodup →
      (∀ node ∈ added, node ∈ pool ∧ node ≠ NULL ∧ node ∉ free) →
      ∃ after free', added.foldlM addPoolNode state = some after ∧ Pooled pool after free' ∧
        after.kallocLive = state.kallocLive ∧ after.staticPoolSetup = state.staticPoolSetup := by
  induction added with
  | nil =>
    intro state free hpooled _ _
    exact ⟨state, free, rfl, hpooled, rfl, rfl⟩
  | cons node rest ih =>
    intro state free hpooled hnodup hadded
    obtain ⟨hpool, hne, hnotFree⟩ := hadded node mem_cons_self
    obtain ⟨mid, hadd, hmiddle, hlive, hsetup⟩ :=
      addPoolNode_spec hpooled hne hnotFree hpool
    have hnodup := nodup_cons.mp hnodup
    obtain ⟨after, free', hfold, hafter, hlive', hsetup'⟩ := ih hmiddle hnodup.2 fun other hother ↦ by
      obtain ⟨hotherPool, hotherNonnull, hotherFree⟩ := hadded other (mem_cons_of_mem _ hother)
      refine ⟨hotherPool, hotherNonnull, ?_⟩
      simp only [mem_cons, not_or]
      exact ⟨fun h ↦ hnodup.1 (h ▸ hother), hotherFree⟩
    exact ⟨after, free', by simp [foldlM_cons, hadd, hfold], hafter, hlive'.trans hlive,
      hsetup'.trans hsetup⟩

theorem init_of_setup (hsetup : state.staticPoolSetup = true) :
    init pool state false = some (state, ⟨NULL, NULL, 0, false⟩) := by
  simp [init, hsetup]

theorem init_pooled (hready : Ready pool state) :
    ∃ after free, init pool state false = some (after, ⟨NULL, NULL, 0, false⟩) ∧
      Pooled pool after free ∧ after.kallocLive = state.kallocLive ∧
      after.staticPoolSetup = true := by
  by_cases hsetup : state.staticPoolSetup = true
  · obtain ⟨free, hpooled⟩ := hready.pooled hsetup
    exact ⟨state, free, init_of_setup hsetup, hpooled, rfl, hsetup⟩
  · have hempty : Pooled pool
        { state with staticPoolSetup := true, freeNodes := ⟨NULL, NULL, 0, true⟩ } [] :=
      ⟨⟨rfl, by simp, rfl⟩, by simp, by simp, by simp⟩
    obtain ⟨after, free, hfold, hpooled, hlive, hset⟩ := foldlM_addPoolNode hempty hready.nodup
      fun node hnode ↦ ⟨hnode, fun h ↦ hready.nonnull (h ▸ hnode), by simp⟩
    exact ⟨after, free, by simp [init, hsetup, hfold], hpooled, hlive, hset⟩

theorem init_spec (hready : Ready pool state) :
    ∃ after list free, init pool state false = some (after, list) ∧
      Coherent pool after list [] free := by
  obtain ⟨after, free, hinit, hpooled, -⟩ := init_pooled hready
  exact ⟨after, _, free, hinit, hpooled, ⟨rfl, by simp, rfl⟩, rfl, by simp, by simp⟩

/-- A call on the list. `fresh` is the address `_kalloc` returns if the call needs one. -/
inductive Operation where
  | insertHead (data fresh : Ptr)
  | insertTail (data fresh : Ptr)
  | removeHead
  | removeTail
  | removeNodeByAddress (data : Ptr)
deriving DecidableEq, Repr

abbrev Machine := NodeStore × SinglyLinkedList

/-- One call, with the value it returns; `void` is zero. -/
def step (fuel : ℕ) : Machine → Operation → Option (Machine × ℕ)
  | (state, list), .insertHead data fresh =>
      (insertHead state list data fresh).map fun after ↦ (after, 0)
  | (state, list), .insertTail data fresh =>
      (insertTail state list data fresh).map fun after ↦ (after, 0)
  | (state, list), .removeHead =>
      (removeHead state list).map fun (after, list', data) ↦ ((after, list'), data)
  | (state, list), .removeTail =>
      (removeTail fuel state list).map fun (after, list', data) ↦ ((after, list'), data)
  | (state, list), .removeNodeByAddress data =>
      (removeNodeByAddress fuel state list data).map fun (after, list', status) ↦
        ((after, list'), status)

def sequenceStep : List Ptr → Operation → List Ptr × ℕ
  | sequence, .insertHead data _ => (data :: sequence, 0)
  | sequence, .insertTail data _ => (sequence ++ [data], 0)
  | sequence, .removeHead => (sequence.tail, sequence.headD NULL)
  | sequence, .removeTail => (sequence.dropLast, sequence.getLastD NULL)
  | sequence, .removeNodeByAddress data =>
      (sequence.erase data, if data ∈ sequence then KERN_SUCCESS else NODE_NOT_FOUND)

/-- Walking `next` from `head` reads `sequence`, `node_count` is its length, and no node of the
list is in the free-node pool. -/
def HoldsSequence (machine : Machine) (sequence : List Ptr) : Prop :=
  ∃ cells free, Segment (nextOf machine.1.nodes) machine.2.head cells NULL ∧
    Segment (nextOf machine.1.nodes) machine.1.freeNodes.head free NULL ∧
    NULL ∉ cells ∧ NULL ∉ free ∧
    contents machine.1.nodes cells = sequence ∧ machine.2.nodeCount = sequence.length ∧
    ∀ cell ∈ cells, cell ∉ free

/-- The run returns, its calls return what the calls on the sequence return, and the list holds
the sequence. -/
def RunRefines (machine : Machine) (fuel : ℕ) (operations : List Operation) : Prop :=
  ∃ final, run (step fuel) machine operations =
      some (final, (runPure sequenceStep [] operations).2) ∧
    HoldsSequence final (runPure sequenceStep [] operations).1

/-- The address that `_kalloc` returns is usable. -/
def KallocFresh (pool : List Ptr) (machine : Machine) : Operation → Prop
  | .insertHead _ fresh => Fresh pool machine.1 fresh
  | .insertTail _ fresh => Fresh pool machine.1 fresh
  | _ => True

/-- `list->tail` is usable: it is the last node, or `NULL` in a list of one node. -/
def TailUsable (machine : Machine) : Prop :=
  ∃ cells, Represents machine.1.nodes machine.2 cells ∧ TailLast machine.2 cells

/-- The state is one in which the call looks at no stale or missing pointer. -/
def Meets (machine : Machine) : Operation → Prop
  | .insertHead _ _ => True
  | .insertTail _ _ => TailUsable machine
  | .removeHead => machine.2.nodeCount = 2 → TailUsable machine
  | .removeTail => 2 ≤ machine.2.nodeCount → TailUsable machine
  | .removeNodeByAddress data =>
      machine.2.nodeCount ≠ 0 ∧
        (machine.2.nodeCount = 2 → (machine.1.nodes machine.2.head).data = data →
          TailUsable machine)

def Admissible (pool : List Ptr) (machine : Machine) (operation : Operation) : Prop :=
  KallocFresh pool machine operation ∧ Meets machine operation

def Related (pool : List Ptr) (fuel budget : ℕ) (machine : Machine) (sequence : List Ptr) : Prop :=
  ∃ cells free, Coherent pool machine.1 machine.2 cells free ∧
    contents machine.1.nodes cells = sequence ∧ cells.length + budget < fuel

theorem TailUsable.tailLast (hcoh : Coherent pool state list cells free)
    (husable : TailUsable (state, list)) : TailLast list cells := by
  obtain ⟨other, hother, htail⟩ := husable
  rwa [hcoh.represents.unique hother]

theorem BecomesWith.related (hbecomes : BecomesWith property pool state cells free fresh after list' expected)
    (hlen : expected.length + budget < fuel) :
    Related pool fuel budget (after, list') expected := by
  obtain ⟨cells', free', hafter, hcontents, -⟩ := hbecomes
  refine ⟨cells', free', hafter, hcontents, ?_⟩
  rw [← hcontents, contents, length_map] at hlen
  exact hlen

variable {machine : Machine}

theorem step_refines
    {op : Operation} (hrelated : Related pool fuel (budget + 1) machine sequence)
    (hadmissible : Admissible pool machine op) :
    ∃ next, step fuel machine op = some (next, (sequenceStep sequence op).2) ∧
      Related pool fuel budget next (sequenceStep sequence op).1 := by
  obtain ⟨state, list⟩ := machine
  obtain ⟨hfresh, hmeets⟩ := hadmissible
  obtain ⟨cells, free, hcoh, rfl, hfuel⟩ := hrelated
  have hcount := hcoh.represents.count
  have hlen : (contents state.nodes cells).length = cells.length := by simp [contents]
  cases op with
  | insertHead data fresh =>
    obtain ⟨after, list', hinsert, hbecomes⟩ := insertHead_spec hcoh hfresh data
    refine ⟨(after, list'), by simp [step, hinsert, sequenceStep], hbecomes.related ?_⟩
    simp only [length_cons, hlen]
    omega
  | insertTail data fresh =>
    obtain ⟨after, list', hinsert, hbecomes⟩ := insertTail_spec hcoh hfresh
      (TailUsable.tailLast hcoh hmeets) data
    refine ⟨(after, list'), by simp [step, hinsert, sequenceStep], hbecomes.related ?_⟩
    simp only [length_append, length_singleton, hlen]
    omega
  | removeHead =>
    obtain ⟨after, list', hremove, hbecomes⟩ := removeHead_spec hcoh
      (fun h ↦ TailUsable.tailLast hcoh (hmeets (hcount.trans h))) NULL
    refine ⟨(after, list'), by simp [step, hremove, sequenceStep], hbecomes.related ?_⟩
    simp only [length_tail, hlen]
    omega
  | removeTail =>
    obtain ⟨after, list', hremove, hbecomes⟩ := removeTail_spec hcoh
      (fun h ↦ TailUsable.tailLast hcoh (hmeets (hcount ▸ h)))
      (show cells.length < fuel by omega) NULL
    refine ⟨(after, list'), by simp [step, hremove, sequenceStep], hbecomes.related ?_⟩
    simp only [length_dropLast, hlen]
    omega
  | removeNodeByAddress data =>
    have hnonempty : cells ≠ [] := by
      rintro rfl
      exact hmeets.1 hcount
    have htail : cells.length = 2 → (contents state.nodes cells).head? = some data →
        TailLast list cells := by
      intro htwo hdata
      obtain ⟨rest, hcells⟩ := hcoh.represents.exists_cons (by rw [hcount, htwo]; decide)
      refine TailUsable.tailLast hcoh (hmeets.2 (hcount.trans htwo) ?_)
      rw [hcells] at hdata
      simpa [contents] using hdata
    obtain ⟨after, list', hremove, hbecomes⟩ := removeNodeByAddress_spec hcoh hnonempty data
      htail (show cells.length < fuel by omega) NULL
    refine ⟨(after, list'), by simp [step, hremove, sequenceStep], hbecomes.related ?_⟩
    have hle : ((contents state.nodes cells).erase data).length ≤ cells.length :=
      hlen ▸ length_erase_le
    exact Nat.lt_of_le_of_lt (Nat.add_le_add_right hle budget) (by omega)

theorem Related.holdsSequence
    (hrelated : Related pool fuel budget machine sequence) : HoldsSequence machine sequence := by
  obtain ⟨cells, free, hcoh, rfl, -⟩ := hrelated
  refine ⟨cells, free, hcoh.represents.segment, hcoh.pooled.represents.segment,
    hcoh.represents.nonnull, hcoh.pooled.represents.nonnull, rfl, ?_, hcoh.disjoint⟩
  rw [hcoh.represents.count, contents, length_map]

/-- **Refinement of runs.** `singly_linked_list_init` returns, and every run from there whose
calls meet `Meets` returns, returns the right elements, and leaves the right sequence. -/
theorem init_refines_sequence (pool : List Ptr) (state : NodeStore) (hready : Ready pool state) :
    ∃ machine, init pool state false = some machine ∧
      ∀ (fuel : ℕ) (operations : List Operation), operations.length < fuel →
        Guarded (step fuel) (Admissible pool) machine operations →
        RunRefines machine fuel operations := by
  obtain ⟨after, list, free, hinit, hcoh⟩ := init_spec hready
  refine ⟨(after, list), hinit, fun fuel operations hfuel hguarded ↦ ?_⟩
  have hrelated : Related pool fuel (operations.length + 0) (after, list) [] :=
    ⟨[], free, hcoh, rfl, by simpa using hfuel⟩
  have hstep : ∀ budget machine sequence op,
      Related pool fuel (budget + 1) machine sequence → Admissible pool machine op →
      ∃ next, step fuel machine op = some (next, (sequenceStep sequence op).2) ∧
        Related pool fuel budget next (sequenceStep sequence op).1 :=
    fun _ _ _ _ ↦ step_refines
  obtain ⟨final, hrun, hfinal⟩ := run_refines hstep operations 0 (after, list) [] hrelated hguarded
  exact ⟨final, hrun, hfinal.holdsSequence⟩

def bootStore : NodeStore := ⟨fun _ ↦ Node.zero, false, ⟨NULL, NULL, 0, false⟩, []⟩

theorem ready_bootStore : Ready [8, 16] bootStore :=
  ⟨by decide, by decide, fun h ↦ by simp [bootStore] at h⟩

/-- A run over a pool of two nodes that uses both ends of the list. -/
theorem init_refines_sequence_twoNodes :
    ∃ machine, init [8, 16] bootStore false = some machine ∧
      RunRefines machine 4 [.insertHead 100 32, .insertTail 200 32, .removeHead] := by
  obtain ⟨machine, hinit, hrun⟩ := init_refines_sequence [8, 16] bootStore ready_bootStore
  refine ⟨machine, hinit, hrun 4 _ (by decide) ?_⟩
  cases hinit
  have hfresh : ∀ state : NodeStore, state.kallocLive = [] → Fresh [8, 16] state 32 :=
    fun state hlive ↦ ⟨by decide, by simp [hlive], by decide⟩
  refine ⟨⟨hfresh _ rfl, trivial⟩, fun next out hstep ↦ ?_⟩
  cases hstep
  refine ⟨⟨hfresh _ rfl, [16], ⟨⟨rfl, rfl⟩, by decide, rfl⟩, .inl ⟨rfl, rfl⟩⟩, fun next out hstep ↦ ?_⟩
  cases hstep
  refine ⟨⟨trivial, fun _ ↦ ⟨[16, 8], ⟨⟨rfl, rfl, rfl⟩, by decide, rfl⟩, .inr rfl⟩⟩,
    fun next out hstep ↦ trivial⟩

/-- Appending to an empty list dereferences `list->tail`, which is `NULL`. -/
theorem insertTail_empty_faults :
    Ready [8, 16] bootStore ∧ ∃ machine, init [8, 16] bootStore false = some machine ∧
      Guarded (step 2) (KallocFresh [8, 16]) machine [.insertTail 100 32] ∧
      ¬ RunRefines machine 2 [.insertTail 100 32] := by
  refine ⟨ready_bootStore, _, rfl, ⟨⟨by decide, by decide, by decide⟩, fun _ _ _ ↦ trivial⟩, ?_⟩
  rintro ⟨final, hrun, -⟩
  cases hrun

end DionysOS.DataStructures.SinglyLinkedList
