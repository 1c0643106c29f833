import DionysOS.Memory.PmmBoot
import DionysOS.Memory.PmmRelease

/-!
# Runs of the physical memory manager

A run is a list of calls of `phys_alloc` and `phys_dealloc`. Next to the state of the allocator it
carries the allocations that have not been freed.

`Books` explains every outstanding allocation by blocks: one used block in the table for an
allocation below the maximal order, a chain of blocks of the maximal order for a large one. What is
neither filed nor held by an allocation is lost. Each call keeps the books, and as no page is
accounted for twice, no two allocations share one.
-/

namespace DionysOS.Memory.Pmm

open DataStructures List SinglyLinkedList Prod
open DataStructures.HashTable

structure Outstanding where
  address : ℕ
  pages : ℕ
  zone : ℕ
deriving DecidableEq, Repr

/-- The calls, with what `_kalloc` would return during an allocation. -/
inductive Operation where
  | alloc (pages zone : ℕ) (allocation : Allocation)
  | dealloc (address : ℕ)
deriving DecidableEq, Repr

structure Machine where
  state : State
  outstanding : List Outstanding

/-- One call. `phys_dealloc` returns nothing, which is written as zero. -/
def step (machine : Machine) : Operation → Option (Machine × ℕ)
  | .alloc pages zone allocation => do
      let (state, address) ← physAlloc machine.state pages zone allocation
      pure (⟨state, ⟨address, pages, zone⟩ :: machine.outstanding⟩, address)
  | .dealloc address => do
      let state ← physDealloc machine.state address
      pure (⟨state, machine.outstanding.eraseP (·.address == address)⟩, 0)

/-- What the callers and `_kalloc` promise: the zone is one of the two, the memory from `_kalloc` is
fresh, and only outstanding allocations are freed. -/
def Promised (pool : List Ptr) (machine : Machine) : Operation → Prop
  | .alloc _ zone allocation => zone < ZONES ∧ Provided pool machine.state allocation
  | .dealloc address => ∃ allocation ∈ machine.outstanding, allocation.address = address

instance (pool : List Ptr) (machine : Machine) :
    ∀ operation, Decidable (Promised pool machine operation)
  | .alloc .. => instDecidableAnd
  | .dealloc _ => inferInstanceAs (Decidable (∃ allocation ∈ _, _))

/-- What `_kalloc` would return in the concrete runs. -/
def spareAllocation : Allocation := ⟨range' 50000 10, 60000⟩

def eightNodes : List Ptr := [8, 16, 24, 32, 40, 48, 56, 64]

theorem ready_eightNodes : Ready eightNodes bootStore :=
  ⟨by decide, by decide, fun h ↦ by simp [bootStore] at h⟩

def blockPages (header : BuddyBlock) : List ℕ :=
  range' (header.startAddress / PAGE_SIZE) (2 ^ header.order)

def chainPages (blocks : BlockMemory) (chain : List Ptr) : List ℕ :=
  chain.flatMap fun block ↦ blockPages (blocks block)

/-- The block of an allocation below the maximal order. -/
structure SmallHolding (allocation : Outstanding) (header : BuddyBlock) : Prop where
  address : header.startAddress = allocation.address
  zone : header.zone = allocation.zone
  order : roundedPages allocation.pages = 2 ^ header.order
  enough : allocation.pages ≤ 2 ^ header.order
  isFree : header.isFree = .used

/-- The blocks of a large allocation. -/
structure LargeHolding (room : ℕ → ℕ → Prop) (blocks : BlockMemory) (allocation : Outstanding)
    (chain : List Ptr) : Prop where
  nonempty : 0 < allocation.pages
  aligned : PAGE_SIZE ∣ allocation.address
  room : room allocation.address allocation.pages
  pages : chainPages blocks chain =
    range' (allocation.address / PAGE_SIZE) allocation.pages
  isFree : ∀ block ∈ chain, (blocks block).isFree = .used

/-- Every outstanding allocation is held by blocks, and the blocks outside the trees hold an
allocation or are lost. -/
structure Books (room : ℕ → ℕ → Prop) (pages : List (ℕ × ℕ)) (pool : List Ptr) (machine : Machine)
    (small : List (Outstanding × Ptr)) (large : List (Outstanding × List Ptr)) (lost : List Ptr) :
    Prop where
  outstanding : machine.outstanding ~ small.map Prod.fst ++ large.map Prod.fst
  accounted : Accounted (Fitting room) pages machine.state
    (small.map Prod.snd ++ (large.flatMap Prod.snd ++ lost))
  tabled : Tabled pool machine.state (small.map Prod.snd)
  small : ∀ holding ∈ small, SmallHolding holding.1 (machine.state.blocks holding.2)
  large : ∀ holding ∈ large, LargeHolding room machine.state.blocks holding.1 holding.2

def holdings (small : List (Outstanding × Ptr)) (large : List (Outstanding × List Ptr)) :
    List (Outstanding × List Ptr) :=
  small.map (fun holding ↦ (holding.1, [holding.2])) ++ large

theorem map_fst_holdings (small : List (Outstanding × Ptr)) (large : List (Outstanding × List Ptr)) :
    (holdings small large).map fst = small.map fst ++ large.map fst := by
  simp [holdings]

theorem flatMap_snd_holdings (small : List (Outstanding × Ptr))
    (large : List (Outstanding × List Ptr)) :
    (holdings small large).flatMap snd = small.map snd ++ large.flatMap snd := by
  have hsmall : (small.map fun holding ↦ (holding.1, [holding.2])).flatMap snd =
      small.map snd := by
    rw [flatMap_map]
    exact map_eq_flatMap.symm
  rw [holdings, flatMap_append, hsmall]

@[simp]
theorem map_snd_zonedPages (header : BuddyBlock) :
    (zonedPages header).map snd = blockPages header := by
  simp [zonedPages, blockPages]

theorem first_mem_blockPages (header : BuddyBlock) :
    header.startAddress / PAGE_SIZE ∈ blockPages header := by
  rw [blockPages, mem_range'_1]
  exact ⟨le_rfl, Nat.lt_add_of_pos_right (Nat.two_pow_pos _)⟩

section Books

variable {room : ℕ → ℕ → Prop} {pages : List (ℕ × ℕ)} {pool : List Ptr} {machine : Machine}
  {small : List (Outstanding × Ptr)} {large : List (Outstanding × List Ptr)} {lost : List Ptr}

theorem Books.covers (hbooks : Books room pages pool machine small large lost)
    {holding : Outstanding × List Ptr} (hhold : holding ∈ holdings small large) :
    PAGE_SIZE ∣ holding.1.address ∧
      holding.1.address / PAGE_SIZE ∈ chainPages machine.state.blocks holding.2 ∧
      range' (holding.1.address / PAGE_SIZE) holding.1.pages ⊆
        chainPages machine.state.blocks holding.2 := by
  rcases mem_append.mp hhold with hsmall | hlarge
  · obtain ⟨⟨allocation, block⟩, hmem, rfl⟩ := mem_map.mp hsmall
    have hheld := hbooks.small _ hmem
    have hlive : block ∈ live machine.state
        (small.map snd ++ (large.flatMap snd ++ lost)) :=
      mem_append_left _ (mem_append_left _ (mem_map_of_mem hmem))
    have hchain : chainPages machine.state.blocks [block] =
        blockPages (machine.state.blocks block) := flatMap_singleton ..
    have haddr : (machine.state.blocks block).startAddress = allocation.address := hheld.address
    simp only
    rw [hchain, ← haddr]
    refine ⟨(hbooks.accounted.sound block hlive).aligned, first_mem_blockPages _, fun page hpage ↦ ?_⟩
    have henough : allocation.pages ≤ 2 ^ (machine.state.blocks block).order := hheld.enough
    rw [mem_range'_1] at hpage
    rw [blockPages, mem_range'_1]
    omega
  · have hheld := hbooks.large _ hlarge
    refine ⟨hheld.aligned, ?_, ?_⟩
    · rw [hheld.pages, mem_range'_1]
      exact ⟨le_rfl, Nat.lt_add_of_pos_right hheld.nonempty⟩
    · rw [hheld.pages]
      exact Subset.refl _

variable {allocation : Outstanding} {chain : List Ptr} {address : ℕ} {block : Ptr}
  (hnodup : (pages.map snd).Nodup)
include hnodup

theorem Accounted.nodup_blockPages {fits : ℕ → ℕ → Prop} {state : State} {others : List Ptr}
    (hacc : Accounted fits pages state others) :
    (chainPages state.blocks (live state others)).Nodup := by
  have hperm := hacc.pages.map snd
  rw [map_flatMap] at hperm
  simp only [map_snd_zonedPages] at hperm
  exact hperm.nodup_iff.mpr hnodup

section

variable (hbooks : Books room pages pool machine small large lost)
include hbooks

theorem Books.pairwise :
    (holdings small large).Pairwise fun holding other ↦
      Disjoint (chainPages machine.state.blocks holding.2)
        (chainPages machine.state.blocks other.2) := by
  have hlive := hbooks.accounted.nodup_blockPages hnodup
  rw [live, ← append_assoc, ← flatMap_snd_holdings, append_assoc, chainPages,
    flatMap_append, flatMap_assoc] at hlive
  exact (nodup_flatMap.mp hlive.of_append_left).2

theorem Books.pairwise_address :
    (holdings small large).Pairwise fun holding other ↦
      holding.1.address ≠ other.1.address := by
  refine (hbooks.pairwise hnodup).imp_of_mem fun {holding other} hhold hother hdisj heq ↦ ?_
  have hfirst := (hbooks.covers hhold).2.1
  rw [heq] at hfirst
  exact hdisj hfirst (hbooks.covers hother).2.1

omit hnodup in
theorem Books.perm {small' : List (Outstanding × Ptr)} {large' : List (Outstanding × List Ptr)}
    (hsmall : small ~ small') (hlarge : large ~ large') :
    Books room pages pool machine small' large' lost where
  outstanding := hbooks.outstanding.trans ((hsmall.map _).append (hlarge.map _))
  accounted := hbooks.accounted.perm
    ((hsmall.map _).append ((hlarge.flatMap_right _).append_right _)).symm
  tabled := by
    obtain ⟨entries, hholds, hentries⟩ := hbooks.tabled
    exact ⟨entries, hholds, fun idx hidx ↦
      (hentries idx hidx).trans ((hsmall.map _).filter _)⟩
  small holding hholding := hbooks.small holding (hsmall.mem_iff.mpr hholding)
  large holding hholding := hbooks.large holding (hlarge.mem_iff.mpr hholding)

theorem Books.outstanding_eraseP {others : List Outstanding}
    (hperm : small.map fst ++ large.map fst ~ allocation :: others) :
    machine.outstanding.eraseP (·.address == allocation.address) ~ others := by
  have hpairwise : (small.map fst ++ large.map fst).Pairwise fun one other ↦
      one.address ≠ other.address := by
    rw [← map_fst_holdings]
    exact pairwise_map.mpr (hbooks.pairwise_address hnodup)
  have hfirst := hpairwise.perm hbooks.outstanding.symm Ne.symm
  have herase := Perm.eraseP (fun other ↦ other.address == allocation.address)
    (hfirst.imp fun hne h h' ↦ hne (by simp_all)) (hbooks.outstanding.trans hperm)
  simpa using herase

end

omit hnodup in
theorem LargeHolding.congr {blocks blocks' : BlockMemory}
    (hheld : LargeHolding room blocks allocation chain)
    (hkept : ∀ block ∈ chain, blocks' block = blocks block) :
    LargeHolding room blocks' allocation chain where
  nonempty := hheld.nonempty
  aligned := hheld.aligned
  room := hheld.room
  pages := by
    rw [← hheld.pages]
    exact flatMap_congr fun block hblock ↦ by rw [hkept block hblock]
  isFree block hblock := by
    rw [hkept block hblock]
    exact hheld.isFree block hblock

omit hnodup in
theorem Books.alloc (hbooks : Books room pages pool machine small large lost)
    (hhalving : Halving (Fitting room)) {req zone : ℕ} {allocation : Allocation}
    {after : State} (hzone : zone < ZONES) (hprovided : Provided pool machine.state allocation)
    (hrequest : req ≤ 2 ^ MAX_ORDER)
    (halloc : physAlloc machine.state req zone allocation = some (after, address)) :
    ∃ order block dropped, requestOrder req = some order ∧
      (FindsBlock machine.state zone order → dropped = []) ∧
      Books room pages pool ⟨after, ⟨address, req, zone⟩ :: machine.outstanding⟩
        ((⟨address, req, zone⟩, block) :: small) large (dropped ++ lost) := by
  obtain ⟨order, block, dropped, horder, haddr, hhanded, hdropped⟩ :=
    (physAlloc_spec hhalving hzone hbooks.accounted hbooks.tabled
      (fun _ hmem ↦ mem_append_left _ hmem) hprovided hrequest).1 after address halloc
  have hblockOrder : (after.blocks block).order = order := hhanded.order
  refine ⟨order, block, dropped, horder, hdropped, hbooks.outstanding.cons _, ?_, hhanded.tabled,
    ?_, ?_⟩
  · -- The dropped blocks are counted among the lost ones.
    apply hhanded.accounted.perm
    apply Perm.cons
    calc small.map snd ++ (large.flatMap snd ++ (dropped ++ lost))
        ~ small.map snd ++ (dropped ++ (large.flatMap snd ++ lost)) :=
          perm_append_comm_assoc .. |>.append_left _
      _ ~ dropped ++ (small.map snd ++ (large.flatMap snd ++ lost)) :=
          perm_append_comm_assoc ..
  · intro holding hhold
    rcases mem_cons.mp hhold with rfl | hold
    · refine ⟨haddr.symm, hhanded.zone, ?_, ?_, hhanded.isFree⟩
      · rw [hblockOrder]
        exact (requestOrder_eq_some horder).2
      · have hge := roundedPages_ge hrequest
        rwa [(requestOrder_eq_some horder).2, ← hblockOrder] at hge
    · rw [hhanded.kept holding.2 (mem_append_left _ (mem_map_of_mem hold))]
      exact hbooks.small holding hold
  · intro holding hhold
    apply (hbooks.large holding hhold).congr
    intro other hother
    apply hhanded.kept other
    exact mem_append_right _ (mem_append_left _ (mem_flatMap.mpr ⟨holding, hhold, hother⟩))

/-- What the release of the block at `address` needs: its bucket can be unlinked, and a merge is
one with an adjacent block. -/
def Releasable (room : ℕ → ℕ → Prop) (state : State) (address : ℕ) : Prop :=
  ∀ block ∈ findUsed state address, block ≠ NULL →
    BucketTailUsable state.lists state.usedBuddyHashTable (bucketOf state.blocks block) block ∧
      (Merges (markFree state block) block → MergeFits (Fitting room) (markFree state block) block)

/-- The release files the block or merges it. -/
def Refiled (state : State) (address : ℕ) : Prop :=
  ∀ block ∈ findUsed state address, block ≠ NULL →
    FilesAlone (markFree state block) block ∨ Merges (markFree state block) block

instance (state : State) (address : ℕ) : Decidable (Refiled state address) :=
  inferInstanceAs (Decidable (∀ block ∈ findUsed state address, _))

instance (room : ℕ → ℕ → Prop) [DecidableRel room] (state : State) (address : ℕ) :
    Decidable (Releasable room state address) :=
  have : DecidableRel (Fitting room) := fun start order ↦
    inferInstanceAs (Decidable (room start (2 ^ order)))
  inferInstanceAs (Decidable (∀ block ∈ findUsed state address, _))

theorem Books.findUsed_small
    (hbooks : Books room pages pool machine ((allocation, block) :: small) large lost) :
    findUsed machine.state allocation.address = some block ∧
      ∀ other ∈ ((allocation, block) :: small).map snd,
        (machine.state.blocks other).startAddress = allocation.address → other = block := by
  have hheld := hbooks.small _ mem_cons_self
  have hunique : ∀ other ∈ ((allocation, block) :: small).map snd,
      (machine.state.blocks other).startAddress = allocation.address → other = block := by
    intro other hother hstart
    rcases mem_cons.mp hother with h | h
    · exact h
    · obtain ⟨holding, hhold, rfl⟩ := mem_map.mp h
      have hfirst := (pairwise_cons.mp (hbooks.pairwise_address hnodup)).1
        (holding.1, [holding.2]) (mem_append_left _ (mem_map_of_mem hhold))
      have hother := hbooks.small holding (mem_cons_of_mem _ hhold)
      exact absurd (hstart.symm.trans hother.address) hfirst
  have haligned : PAGE_SIZE ∣ allocation.address :=
    (hbooks.covers mem_cons_self).1
  exact ⟨findUsed_of_mem hbooks.tabled haligned mem_cons_self hheld.address hunique, hunique⟩

theorem Books.dealloc_small
    (hbooks : Books room pages pool machine ((allocation, block) :: small) large lost)
    (hrelease : Releasable room machine.state allocation.address) :
    ∃ after lost', step machine (.dealloc allocation.address) = some (after, 0) ∧
      Books room pages pool after small large lost' ∧
      (Refiled machine.state allocation.address → lost = [] → lost' = []) := by
  obtain ⟨hfind, hunique⟩ := hbooks.findUsed_small hnodup
  let rest := small.map snd ++ (large.flatMap snd ++ lost)
  have hacc : Accounted (Fitting room) pages machine.state (block :: rest) := hbooks.accounted
  have hnonnull : block ≠ NULL := fun h ↦
    hacc.nonnull (mem_append_left _ (h ▸ mem_cons_self))
  obtain ⟨htail, hmerge⟩ := hrelease block hfind hnonnull
  have hothers : (block :: rest).Nodup :=
    hacc.nodup.of_append_left.of_append_left
  have hsmallNodup : (((allocation, block) :: small).map snd).Nodup :=
    hothers.sublist ((sublist_append_left ..).cons_cons block)
  obtain ⟨after, hfree, htabled, hsettled⟩ := buddyFree_spec hacc hbooks.tabled
    mem_cons_self hsmallNodup
    (fun other hother ↦ mem_append_left _ hother)
    (fun other hother ↦ by
      obtain ⟨holding, hhold, rfl⟩ := mem_map.mp hother
      exact (hbooks.small holding hhold).isFree)
    (hbooks.small _ mem_cons_self).address hunique htail hmerge
  -- The other blocks that hold an allocation are in use, so they keep their headers.
  have hkept : ∀ other ∈ rest, (machine.state.blocks other).isFree = .used →
      after.blocks other = machine.state.blocks other := by
    intro other hother hused
    have hne : other ≠ block := fun h ↦ (nodup_cons.mp hothers).1 (h ▸ hother)
    rw [hsettled.kept hother (by rw [markFree_other hne]; exact hused), markFree_other hne]
  have hsmall : ∀ holding ∈ small, SmallHolding holding.1 (after.blocks holding.2) := by
    intro holding hhold
    have hheld := hbooks.small holding (mem_cons_of_mem _ hhold)
    rw [hkept holding.2 (mem_append_left _ (mem_map_of_mem hhold)) hheld.isFree]
    exact hheld
  have hlarge : ∀ holding ∈ large, LargeHolding room after.blocks holding.1 holding.2 := by
    intro holding hhold
    have hheld := hbooks.large holding hhold
    refine hheld.congr fun other hother ↦ hkept other ?_ (hheld.isFree other hother)
    exact mem_append_right _ (mem_append_left _ (mem_flatMap.mpr ⟨holding, hhold, hother⟩))
  have hbooksAfter : ∀ lost', Accounted (Fitting room) pages after
      (small.map snd ++ (large.flatMap snd ++ lost')) →
      Books room pages pool
        ⟨after, machine.outstanding.eraseP (·.address == allocation.address)⟩ small large lost' :=
    fun lost' hacc' ↦ ⟨hbooks.outstanding_eraseP hnodup (.refl _), hacc',
      by simpa using htabled, hsmall, hlarge⟩
  have hstep : step machine (.dealloc allocation.address) = some
      (⟨after, machine.outstanding.eraseP (·.address == allocation.address)⟩, 0) := by
    simp [step, physDealloc, hfree]
  cases hsettled with
  | filed hacc' _ => exact ⟨_, lost, hstep, hbooksAfter lost hacc', fun _ h ↦ h⟩
  | merged hnextFree hacc' _ =>
    -- The successor is free, so it holds nothing.
    set next := ((markFree machine.state block).blocks block).next
    refine ⟨_, lost.erase next, hstep, hbooksAfter _ ?_, fun _ h ↦ by simp [h]⟩
    have hnotUsed : ∀ other ∈ rest, other = next → (machine.state.blocks other).isFree ≠ .used := by
      intro other hother heq hused
      have hne : other ≠ block := fun h ↦ (nodup_cons.mp hothers).1 (h ▸ hother)
      rw [← heq, markFree_other hne, hused] at hnextFree
      cases hnextFree
    have hnotSmall : next ∉ small.map snd := by
      intro hmem
      refine hnotUsed _ (mem_append_left _ hmem) rfl ?_
      obtain ⟨holding, hhold, heq⟩ := mem_map.mp hmem
      rw [← heq]
      exact (hbooks.small holding (mem_cons_of_mem _ hhold)).isFree
    have hnotLarge : next ∉ large.flatMap snd := by
      intro hmem
      refine hnotUsed _ (mem_append_right _ (mem_append_left _ hmem)) rfl ?_
      obtain ⟨holding, hhold, hchain⟩ := mem_flatMap.mp hmem
      exact (hbooks.large holding hhold).isFree _ hchain
    rwa [erase_append_right _ hnotSmall, erase_append_right _ hnotLarge] at hacc'
  | left hneither hacc' _ =>
    refine ⟨_, block :: lost, hstep, hbooksAfter _ (hacc'.perm ?_), fun hrefiled ↦ ?_⟩
    · calc small.map snd ++ (large.flatMap snd ++ block :: lost)
          ~ small.map snd ++ block :: (large.flatMap snd ++ lost) :=
            perm_middle.append_left _
        _ ~ block :: rest := perm_middle
    · exact absurd (hrefiled block hfind hnonnull) (not_or.mpr hneither)

/-- The release of a large allocation, which the table does not know: its blocks are lost. -/
theorem Books.dealloc_large
    (hbooks : Books room pages pool machine small ((allocation, chain) :: large) lost) :
    ∃ after, step machine (.dealloc allocation.address) = some (after, 0) ∧
      Books room pages pool after small large (chain ++ lost) := by
  have hheld := hbooks.large _ mem_cons_self
  have hnone : ∀ other ∈ small.map snd,
      (machine.state.blocks other).startAddress ≠ allocation.address := by
    intro other hother hstart
    obtain ⟨holding, hhold, rfl⟩ := mem_map.mp hother
    have hpairwise := (pairwise_append.mp (hbooks.pairwise_address hnodup)).2.2
      (holding.1, [holding.2]) (mem_map_of_mem hhold) _ mem_cons_self
    exact hpairwise ((hbooks.small holding hhold).address.symm.trans hstart)
  have hfind := findUsed_of_notMem hbooks.tabled hheld.aligned hnone
  refine ⟨⟨machine.state, machine.outstanding.eraseP (·.address == allocation.address)⟩, ?_,
    hbooks.outstanding_eraseP hnodup perm_middle, ?_, hbooks.tabled, hbooks.small,
    fun holding hhold ↦ hbooks.large holding (mem_cons_of_mem _ hhold)⟩
  · simp [step, physDealloc, buddyFree, hfind]
  · apply hbooks.accounted.perm
    apply Perm.append_left
    rw [flatMap_cons, append_assoc]
    exact perm_append_comm_assoc ..

theorem Books.dealloc (hbooks : Books room pages pool machine small large lost)
    (houtstanding : ∃ allocation ∈ machine.outstanding, allocation.address = address)
    (hrelease : Releasable room machine.state address) :
    ∃ after small' large' lost', step machine (.dealloc address) = some (after, 0) ∧
      Books room pages pool after small' large' lost' ∧
      (Refiled machine.state address → large = [] → lost = [] → large' = [] ∧ lost' = []) := by
  obtain ⟨allocation, hmem, rfl⟩ := houtstanding
  rcases mem_append.mp (hbooks.outstanding.mem_iff.mp hmem) with hsmall | hlarge
  · obtain ⟨⟨_, block⟩, hhold, rfl⟩ := mem_map.mp hsmall
    have hperm := perm_cons_erase hhold
    obtain ⟨after, lost', hstep, hafter, hlost⟩ :=
      (hbooks.perm hperm (.refl _)).dealloc_small hnodup hrelease
    exact ⟨after, _, large, lost', hstep, hafter, fun hrefiled hlarge hnone ↦
      ⟨hlarge, hlost hrefiled hnone⟩⟩
  · obtain ⟨⟨_, chain⟩, hhold, rfl⟩ := mem_map.mp hlarge
    have hperm := perm_cons_erase hhold
    obtain ⟨after, hstep, hafter⟩ := (hbooks.perm (.refl _) hperm).dealloc_large hnodup
    refine ⟨after, small, _, _, hstep, hafter, fun _ hnone ↦ ?_⟩
    rw [hnone] at hhold
    cases hhold

end Books

end DionysOS.Memory.Pmm
