import DionysOS.DataStructures.SinglyLinkedListRefinement

/-!
# Lists that share the node pool

The kernel embeds list headers in other structures, one in every tree node and one in every bucket
of a hash table, and all of them take their nodes from one pool. A `Family` is a set of such
lists: each is coherent on its own, and no two share a node. A call on one member, specified on
that list alone, leaves the other members as they were.
-/

namespace DionysOS.DataStructures.SinglyLinkedList

open Function

variable {Index : Type*} {pool free : List Ptr} {state after : NodeStore}
  {list list' : SinglyLinkedList} {cells cells' free' : List Ptr} {fresh : Ptr}

theorem Coherent.frame (hcoh : Coherent pool state list cells free)
    {touched touched' : List Ptr} (hpooled : Pooled pool after free')
    (hconfined : Confined state after touched free touched' free' fresh)
    (hdisj : ∀ cell ∈ cells, cell ∉ touched) (hfresh : fresh ∉ cells) :
    Coherent pool after list cells free' ∧
      contents after.nodes cells = contents state.nodes cells := by
  have hnodes : ∀ cell ∈ cells, after.nodes cell = state.nodes cell := by
    intro cell hcell
    apply hconfined.nodes cell (hdisj cell hcell) (hcoh.disjoint cell hcell)
    rintro rfl
    exact hfresh hcell
  refine ⟨⟨hpooled, ?_, hcoh.ordinary, ?_, ?_⟩, ?_⟩
  · exact hcoh.represents.congr fun cell hcell ↦ by rw [hnodes cell hcell]
  · intro cell hcell
    apply (hcoh.owned cell hcell).mono
    · rw [hnodes cell hcell]
    · exact hconfined.live cell (hdisj cell hcell)
  · intro cell hcell hmem
    rcases hconfined.freeCells cell hmem with h | h
    · exact hdisj cell hcell h
    · exact hcoh.disjoint cell hcell h
  · exact contents_congr fun cell hcell ↦ by rw [hnodes cell hcell]

/-- The members' lists are coherent and share no node. -/
structure Family (pool : List Ptr) (state : NodeStore) (members : Index → Prop)
    (header : Index → SinglyLinkedList) (cells : Index → List Ptr) (free : List Ptr) : Prop where
  pooled : Pooled pool state free
  coherent : ∀ index, members index → Coherent pool state (header index) (cells index) free
  disjoint : ∀ index other, members index → members other → index ≠ other →
    ∀ cell ∈ cells index, cell ∉ cells other

section Family

variable {members : Index → Prop} {hdr : Index → SinglyLinkedList}
  {cells : Index → List Ptr} {idx : Index}

theorem Family.mono (hfamily : Family pool state members hdr cells free)
    {fewer : Index → Prop} (hdr' : Index → SinglyLinkedList) (hfewer : ∀ other, fewer other → members other)
    (hhdr : ∀ other, fewer other → hdr' other = hdr other) :
    Family pool state fewer hdr' cells free where
  pooled := hfamily.pooled
  coherent other hother := by
    rw [hhdr other hother]
    exact hfamily.coherent other (hfewer other hother)
  disjoint one other hone hother :=
    hfamily.disjoint one other (hfewer one hone) (hfewer other hother)

theorem Pooled.family (hpooled : Pooled pool state free) (hnone : ∀ idx, ¬ members idx)
    (hdr : Index → SinglyLinkedList) (cells : Index → List Ptr) :
    Family pool state members hdr cells free :=
  ⟨hpooled, fun idx h ↦ absurd h (hnone idx), fun idx _ h ↦ absurd h (hnone idx)⟩

variable [DecidableEq Index]

theorem Family.insert (hfamily : Family pool state members hdr cells free) (idx : Index)
    (hdr' : Index → SinglyLinkedList) (hhdr : hdr' idx = ⟨NULL, NULL, 0, false⟩)
    (hothers : ∀ other, other ≠ idx → hdr' other = hdr other) :
    Family pool state (fun other ↦ other = idx ∨ (members other ∧ other ≠ idx)) hdr'
      (update cells idx []) free where
  pooled := hfamily.pooled
  coherent other hother := by
    rcases hother with rfl | ⟨hmem, hne⟩
    · rw [hhdr, update_self]
      exact ⟨hfamily.pooled, ⟨rfl, by simp, rfl⟩, rfl, by simp, by simp⟩
    · rw [hothers other hne, update_of_ne hne]
      exact hfamily.coherent other hmem
  disjoint one other hone hother hne := by
    rcases hone with rfl | ⟨hmem, hnew⟩
    · simp
    · rw [update_of_ne hnew]
      rcases hother with rfl | ⟨hmem', hnew'⟩
      · simp
      · rw [update_of_ne hnew']
        exact hfamily.disjoint one other hmem hmem' hne

/-- **Calls on one member.** A call that is right for the member's own list is right for the
family, and the contents of the other members do not change. -/
theorem Family.update (hfamily : Family pool state members hdr cells free)
    (hmember : members idx) (hfresh : ∀ other, members other → fresh ∉ cells other)
    (hcoh : Coherent pool after list' cells' free')
    (hconfined : Confined state after (cells idx) free cells' free' fresh)
    (hdr' : Index → SinglyLinkedList) (hhdr : hdr' idx = list')
    (hothers : ∀ other, other ≠ idx → hdr' other = hdr other) :
    Family pool after members hdr' (update cells idx cells') free' ∧
      ∀ other, members other → other ≠ idx →
        contents after.nodes (cells other) = contents state.nodes (cells other) := by
  have hframe : ∀ other, members other → other ≠ idx →
      Coherent pool after (hdr other) (cells other) free' ∧
        contents after.nodes (cells other) = contents state.nodes (cells other) :=
    fun other hother hne ↦ (hfamily.coherent other hother).frame hcoh.pooled hconfined
      (hfamily.disjoint other idx hother hmember hne) (hfresh other hother)
  -- A node of the changed list is an old node of it, a free node or the fresh one.
  have hapart : ∀ other, members other → other ≠ idx → ∀ cell ∈ cells', cell ∉ cells other := by
    intro other hother hne cell hcell hmem
    rcases hconfined.ownCells cell hcell with h | h | rfl
    · exact hfamily.disjoint idx other hmember hother hne.symm cell h hmem
    · exact (hfamily.coherent other hother).disjoint cell hmem h
    · exact hfresh other hother hmem
  refine ⟨⟨hcoh.pooled, ?_, ?_⟩, fun other hother hne ↦ (hframe other hother hne).2⟩
  · intro other hother
    by_cases hne : other = idx
    · subst hne
      rw [hhdr, update_self]
      exact hcoh
    · rw [hothers other hne, update_of_ne hne]
      exact (hframe other hother hne).1
  · intro one other hone hother hne cell hcell
    by_cases h : one = idx
    · subst h
      rw [update_self] at hcell
      rw [update_of_ne hne.symm]
      exact hapart other hother hne.symm cell hcell
    · rw [update_of_ne h] at hcell
      by_cases h' : other = idx
      · subst h'
        rw [update_self]
        exact fun hmem ↦ hapart one hone h cell hmem hcell
      · rw [update_of_ne h']
        exact hfamily.disjoint one other hone hother hne cell hcell

end Family

end DionysOS.DataStructures.SinglyLinkedList
