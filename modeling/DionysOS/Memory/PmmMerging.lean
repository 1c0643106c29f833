import DionysOS.Memory.PmmAllocation

/-!
# Release and merging

`buddy_free` finds the block in the table, takes it out and passes it to `buddy_coalesce`, which
puts it back into a tree in three cases: it has no successor, it is of the maximal order, or it can
be merged with its successor. The test for the last case looks at the order, state, zone and flag
of the successor, not at its address; `Accounted.merge` needs that the successor starts where the
block ends. In the remaining case the block is left outside the trees.
-/

namespace DionysOS.Memory.Pmm

open DataStructures List Function State
open DataStructures.HashTable

variable {fits : ℕ → ℕ → Prop} {pages : List (ℕ × ℕ)} {pool : List Ptr} {state : State}
  {small rest : List Ptr} {block next : Ptr} {order addr : ℕ}

/-- The header of a block that has taken over its successor. -/
def mergedHeader (header successor : BuddyBlock) : BuddyBlock :=
  { header with next := successor.next, order := header.order + 1 }

/-- What `buddy_block_free` makes of a descriptor that is in no tree. -/
def releaseDescriptor (state : State) (block : Ptr) : State :=
  if (state.blocks block).staticPoolFlag then
    { state.setBlock block ⟨NULL, UNUSED, 0, true, false, false, UNUSED_BYTE, .unused, 0⟩ with
      unusedBuddyBlocksList := block :: state.unusedBuddyBlocksList }
  else { state with kallocLive := state.kallocLive.erase block }

/-- The state after `block` has taken over `next`, which is in no tree. -/
def mergeState (state : State) (block next : Ptr) : State :=
  releaseDescriptor
    (state.setBlock block (mergedHeader (state.blocks block) (state.blocks next))) next

section Merge

variable (hacc : Accounted fits pages state (next :: block :: rest))

theorem mergeState_block (hne : block ≠ next) : (mergeState state block next).blocks block =
    mergedHeader (state.blocks block) (state.blocks next) := by
  unfold mergeState releaseDescriptor
  split
  · simp [setBlock, hne]
  · simp [setBlock]

theorem mergeState_other {other : Ptr} (hblock : other ≠ block) (hnext : other ≠ next) :
    (mergeState state block next).blocks other = state.blocks other := by
  unfold mergeState releaseDescriptor
  split
  · simp [setBlock, hblock, hnext]
  · simp [setBlock, hblock]

theorem mergeState_trees :
    (mergeState state block next).buddyFreeListZone = state.buddyFreeListZone := by
  unfold mergeState releaseDescriptor
  split
  · rfl
  · rfl

theorem live_mergeState : live (mergeState state block next) (block :: rest) =
    live state (block :: rest) := by
  rw [live, allFiled_congr mergeState_trees, live]

include hacc in
theorem Accounted.merge_ne : block ≠ next := by
  have hnodup := hacc.nodup.of_append_left.of_append_left
  rintro rfl
  simp at hnodup

theorem zonedPages_merged {header successor : BuddyBlock} (horder : header.order = successor.order)
    (hzone : header.zone = successor.zone)
    (hadjacent : successor.startAddress = header.startAddress + 2 ^ header.order * PAGE_SIZE) :
    zonedPages (mergedHeader header successor) ~ zonedPages successor ++ zonedPages header := by
  have hhalves := zonedPages_halves (mergedHeader header successor) successor NULL
    rfl
  have hupper : zonedPages (upperHalf (mergedHeader header successor) successor header.order) =
      zonedPages successor := by
    simp only [zonedPages, upperHalf, mergedHeader, hadjacent, hzone, horder]
  rw [hupper] at hhalves
  exact hhalves

include hacc in
/-- The live blocks and the unused descriptors after a merge are those before it, without the
descriptor of the successor if `_kfree` got it. -/
theorem Accounted.merge_places :
    ((mergeState state block next).unusedBuddyBlocksList =
        next :: state.unusedBuddyBlocksList ∧ IsStatic next ∧
      (mergeState state block next).kallocLive = state.kallocLive ∧
      ((mergeState state block next).blocks next).order = UNUSED_BYTE ∧
      ((mergeState state block next).blocks next).staticPoolFlag = true) ∨
    ((mergeState state block next).unusedBuddyBlocksList = state.unusedBuddyBlocksList ∧
      ¬ IsStatic next ∧
      (mergeState state block next).kallocLive = state.kallocLive.erase next) := by
  have hne := hacc.merge_ne
  have howned := (hacc.sound next (by simp [live])).owned
  by_cases hstatic : (state.blocks next).staticPoolFlag = true
  · left
    rw [if_pos hstatic] at howned
    simp [mergeState, releaseDescriptor, State.setBlock, hne.symm, hstatic, howned]
  · right
    rw [if_neg hstatic] at howned
    simp [mergeState, releaseDescriptor, State.setBlock, hne.symm, hstatic, howned.2]

include hacc in
section

variable (hnext : (state.blocks block).next = next)
include hnext

/-- Successors outside the static pool keep one predecessor: what was behind the released block is
behind the merged one, and nothing else pointed at the released block. -/
theorem Accounted.merge_chain :
    let after := mergeState state block next
    (∀ member ∈ live state (block :: rest), (after.blocks member).next = NULL ∨
      IsStatic (after.blocks member).next ∨
        (after.blocks member).next ∈ live state (block :: rest)) ∧
    ∀ first ∈ live state (block :: rest), ∀ second ∈ live state (block :: rest),
      (after.blocks first).next = (after.blocks second).next → (after.blocks first).next ≠ NULL →
      ¬ IsStatic (after.blocks first).next → first = second := by
  intro after
  have hne := hacc.merge_ne
  have hnotMem : next ∉ live state (block :: rest) := by
    have hnodup := hacc.nodup.of_append_left
    exact (nodup_cons.mp hnodup).1
  have hmem : ∀ {member}, member ∈ live state (block :: rest) →
      member ∈ live state (next :: block :: rest) := fun h ↦ mem_cons_of_mem _ h
  have hnextMem : next ∈ live state (next :: block :: rest) := mem_cons_self
  have hblockMem : block ∈ live state (block :: rest) := mem_cons_self
  -- `before member` is the block that had the successor of `member` before the merge.
  let before : Ptr → Ptr := fun member ↦ if member = block then next else member
  have hbefore : ∀ member ∈ live state (block :: rest),
      before member ∈ live state (next :: block :: rest) ∧ before member ≠ block ∧
        (after.blocks member).next = (state.blocks (before member)).next := by
    intro member hmember
    have hmemberNe : member ≠ next := fun h ↦ hnotMem (h ▸ hmember)
    by_cases h : member = block
    · subst h
      refine ⟨by simpa [before] using hnextMem, by simpa [before] using hne.symm, ?_⟩
      simp [before, after, mergeState_block hne, mergedHeader]
    · refine ⟨by simpa [before, h] using hmem hmember, by simp [before, h], ?_⟩
      simp [before, h, after, mergeState_other h hmemberNe]
  refine ⟨fun member hmember ↦ ?_, fun first hfirst second hsecond hsame hnull hstatic ↦ ?_⟩
  · obtain ⟨hlive, hother, heq⟩ := hbefore member hmember
    rw [heq]
    by_cases hnull : (state.blocks (before member)).next = NULL
    · exact .inl hnull
    · by_cases hstatic : IsStatic (state.blocks (before member)).next
      · exact .inr (.inl hstatic)
      · -- Only `block` pointed at `next`, and it no longer does.
        have hinner := ((hacc.next _ hlive).resolve_left hnull).resolve_left hstatic
        refine .inr (.inr ((mem_cons.mp hinner).resolve_left fun h ↦ hother ?_))
        exact hacc.unique _ hlive _ (hmem hblockMem) (h.trans hnext.symm) hnull hstatic
  · obtain ⟨hlive, -, heq⟩ := hbefore first hfirst
    obtain ⟨hlive', -, heq'⟩ := hbefore second hsecond
    rw [heq] at hsame hnull hstatic
    rw [heq'] at hsame
    have hboth := hacc.unique _ hlive _ hlive' hsame hnull hstatic
    have hfirstNe : first ≠ next := fun h ↦ hnotMem (h ▸ hfirst)
    have hsecondNe : second ≠ next := fun h ↦ hnotMem (h ▸ hsecond)
    exact eq_of_redirect hfirstNe hsecondNe hboth

include hacc in
theorem Accounted.merge_pages (hlt : (state.blocks block).order < MAX_ORDER)
    (hfits : fits (state.blocks block).startAddress ((state.blocks block).order + 1))
    {pages' : List (ℕ × ℕ)} (hpages : (live state (block :: rest)).flatMap
      (fun member ↦ zonedPages ((mergeState state block next).blocks member)) ~ pages') :
    Accounted fits pages' (mergeState state block next) (block :: rest) := by
  have hne := hacc.merge_ne
  have hnodup := hacc.nodup
  have hnonnull := hacc.nonnull
  have hstatic := hacc.static
  have hnotMem : next ∉ live state (block :: rest) :=
    fun h ↦ (nodup_cons.mp hnodup).1 (mem_append_left _ h)
  have hblockMem : block ∈ live state (block :: rest) := mem_cons_self
  have hsound : ∀ member ∈ live state (block :: rest),
      Sound fits state.kallocLive member (state.blocks member) :=
    fun member hmem ↦ hacc.sound member (mem_cons_of_mem _ hmem)
  have hmemberNe : ∀ member ∈ live state (block :: rest), member ≠ next :=
    fun member hmem h ↦ hnotMem (h ▸ hmem)
  have hplaces := hacc.merge_places
  have hchain := hacc.merge_chain hnext
  have hkalloc : ∀ member ∈ live state (block :: rest), member ∈ state.kallocLive →
      member ∈ (mergeState state block next).kallocLive := by
    intro member hmem hkalloc
    rcases hplaces with ⟨-, -, hsame, -⟩ | ⟨-, -, herase⟩
    · rwa [hsame]
    · rw [herase]
      exact (mem_erase_of_ne (hmemberNe member hmem)).mpr hkalloc
  -- The places of the descriptors are the old ones up to order, or lack `next`.
  have hsub : (live state (block :: rest) ++ (mergeState state block next).unusedBuddyBlocksList <+~
      next :: (live state (block :: rest) ++ state.unusedBuddyBlocksList)) := by
    rcases hplaces with ⟨hunused, -⟩ | ⟨hunused, -⟩
    · rw [hunused]
      exact perm_middle.subperm
    · rw [hunused]
      exact (sublist_cons_self ..).subperm
  refine ⟨?_, ?_, ?_, ?_, ?_, ?_, ?_, ?_, ?_⟩
  · rw [mergeState_trees]
    intro zone hlt key member hmem
    have hfiled := hacc.filed zone hlt key member hmem
    have hblock : member ≠ block :=
      fun h ↦ hacc.notMem_filed (by simp) hlt (h ▸ hmem)
    have hnext : member ≠ next :=
      fun h ↦ hacc.notMem_filed (by simp) hlt (h ▸ hmem)
    rwa [mergeState_other hblock hnext]
  · rw [live_mergeState]
    intro member hmem
    have hold := hsound member hmem
    have howned := hold.owned_mono (hkalloc member hmem)
    by_cases hsame : member = block
    · subst hsame
      rw [mergeState_block hne]
      exact ⟨hlt, hold.zone, hold.aligned, hfits, howned⟩
    · rw [mergeState_other hsame (hmemberNe member hmem)]
      exact { hold with owned := howned }
  · intro member hmem
    by_cases hsame : member = next
    · subst hsame
      rcases hplaces with ⟨-, hisStatic, -, horder, hflag⟩ | ⟨hunused, -⟩
      · exact ⟨horder, hflag, hisStatic⟩
      · rw [hunused] at hmem
        exact absurd (mem_append_right _ hmem) (nodup_cons.mp hnodup).1
    · have hold : member ∈ state.unusedBuddyBlocksList := by
        rcases hplaces with ⟨hunused, -⟩ | ⟨hunused, -⟩
        · rw [hunused] at hmem
          exact (mem_cons.mp hmem).resolve_left hsame
        · rwa [hunused] at hmem
      have hblock : member ≠ block := fun h ↦
        (nodup_append.mp (nodup_cons.mp hnodup).2).2.2 block hblockMem member hold h.symm
      rw [mergeState_other hblock hsame]
      exact hacc.unused member hold
  · rw [live_mergeState]
    obtain ⟨places, hperm, hsublist⟩ := hsub
    exact hperm.nodup_iff.mp (hnodup.sublist hsublist)
  · rw [live_mergeState]
    exact fun h ↦ hnonnull (hsub.subset h)
  · rw [live_mergeState]
    intro member hmem
    have hold := hstatic member hmem
    rcases hplaces with ⟨hunused, -⟩ | ⟨hunused, hdynamic, -⟩
    · rw [hunused]
      exact perm_middle.mem_iff.mpr hold
    · rw [hunused]
      exact (mem_cons.mp hold).resolve_left fun h ↦ hdynamic (h ▸ hmem)
  · rw [live_mergeState]
    exact hchain.1
  · rw [live_mergeState]
    exact hchain.2
  · rw [live_mergeState]
    exact hpages

include hacc in
theorem Accounted.merge (horder : (state.blocks block).order = (state.blocks next).order)
    (hlt : (state.blocks block).order < MAX_ORDER)
    (hzone : (state.blocks block).zone = (state.blocks next).zone)
    (hadjacent : (state.blocks next).startAddress =
      (state.blocks block).startAddress + 2 ^ (state.blocks block).order * PAGE_SIZE)
    (hfits : fits (state.blocks block).startAddress ((state.blocks block).order + 1)) :
    Accounted fits pages (mergeState state block next) (block :: rest) := by
  have hne := hacc.merge_ne
  have hlive : live state (next :: block :: rest) = next :: live state (block :: rest) := rfl
  have hnodup := hacc.nodup.of_append_left
  rw [hlive, nodup_cons] at hnodup
  have hmerged := flatMap_update_perm
    (fun member ↦ zonedPages ((mergeState state block next).blocks member)) hnodup.2
    mem_cons_self
    (by simpa only [mergeState_block hne] using zonedPages_merged horder hzone hadjacent)
  apply hacc.merge_pages hnext hlt hfits
  refine hmerged.trans (Perm.trans (Perm.of_eq ?_) hacc.pages)
  congr 1
  apply flatMap_congr
  intro member hmember
  by_cases hsame : member = block
  · subst hsame
    rw [update_self]
  · have hmemberNe : member ≠ next := fun h ↦ hnodup.1 (h ▸ hmember)
    rw [update_of_ne hsame, mergeState_other hsame hmemberNe]

end

end Merge

section

variable (htabled : Tabled pool state small)
include htabled

theorem findUsed_eq (haligned : PAGE_SIZE ∣ addr) : ∃ bucket,
    bucket ~ small.filter (bucketOf state.blocks · == hash addr HASH_TABLE_STATIC_POOL_SIZE) ∧
      findUsed state addr =
        some ((bucket.find? fun other ↦ (state.blocks other).startAddress == addr).getD NULL) := by
  obtain ⟨entries, hholds, hentries⟩ := htabled
  have hidx := hash_lt_of_pageAligned haligned
  refine ⟨_, hentries _ hidx, ?_⟩
  simpa [findUsed, staticHashTableRetrieve, hidx] using hholds.findData hidx _

theorem findUsed_of_mem (haligned : PAGE_SIZE ∣ addr)
    (hblock : block ∈ small) (hstart : (state.blocks block).startAddress = addr)
    (hunique : ∀ other ∈ small, (state.blocks other).startAddress = addr → other = block) :
    findUsed state addr = some block := by
  obtain ⟨bucket, hperm, heq⟩ := findUsed_eq htabled haligned
  have hmem : block ∈ bucket :=
    hperm.mem_iff.mpr (mem_filter.mpr ⟨hblock, by simp [bucketOf, hstart]⟩)
  have hsome : (bucket.find? fun other ↦ (state.blocks other).startAddress == addr).isSome :=
    find?_isSome.mpr ⟨block, hmem, beq_iff_eq.mpr hstart⟩
  obtain ⟨found, hfound⟩ := Option.isSome_iff_exists.mp hsome
  have hsame : found = block := by
    apply hunique found
    · exact (mem_filter.mp (hperm.mem_iff.mp (mem_of_find?_eq_some hfound))).1
    · simpa using find?_some hfound
  rw [heq, hfound, hsame]
  rfl

theorem findUsed_of_notMem (haligned : PAGE_SIZE ∣ addr)
    (hnone : ∀ other ∈ small, (state.blocks other).startAddress ≠ addr) :
    findUsed state addr = some NULL := by
  obtain ⟨bucket, hperm, heq⟩ := findUsed_eq htabled haligned
  rw [heq, find?_eq_none.mpr]
  · rfl
  · intro other hother
    have hmem := (mem_filter.mp (hperm.mem_iff.mp hother)).1
    simpa using hnone other hmem

theorem removeUsed_spec
    (haligned : PAGE_SIZE ∣ (state.blocks block).startAddress) (hblock : block ∈ small)
    (hnodup : small.Nodup) (htail : BucketTailUsable state.lists state.usedBuddyHashTable
      (bucketOf state.blocks block) block) :
    ∃ lists table, removeFromBucket state.lists state.usedBuddyHashTable
        (bucketOf state.blocks block) block = some (lists, table, SinglyLinkedList.KERN_SUCCESS) ∧
      Tabled pool { state with lists := lists, usedBuddyHashTable := table }
        (small.erase block) := by
  obtain ⟨entries, hholds, hentries⟩ := htabled
  have hidx : bucketOf state.blocks block < HASH_TABLE_STATIC_POOL_SIZE :=
    hash_lt_of_pageAligned haligned
  have hmem : block ∈ entries (bucketOf state.blocks block) :=
    (hentries _ hidx).mem_iff.mpr (mem_filter.mpr ⟨hblock, by simp⟩)
  obtain ⟨lists, table, hremove, hafter⟩ := removeFromBucket_spec hholds hidx hmem htail
  refine ⟨lists, table, hremove, _, hafter, fun index hlt ↦ ?_⟩
  by_cases hsame : index = bucketOf state.blocks block
  · subst hsame
    rw [update_self, hnodup.erase_eq_filter, filter_comm, ← Nodup.erase_eq_filter (hnodup.filter _)]
    exact (hentries _ hlt).erase block
  · rw [update_of_ne hsame]
    refine (hentries index hlt).trans (Perm.of_eq (Eq.symm ?_))
    rw [hnodup.erase_eq_filter, filter_comm]
    apply filter_eq_self.mpr
    intro other hother
    have hbucket : bucketOf state.blocks other = index := by
      simpa using (mem_filter.mp hother).2
    have hne : other ≠ block := by
      rintro rfl
      exact hsame hbucket.symm
    simpa using hne

end

end DionysOS.Memory.Pmm
