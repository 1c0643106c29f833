import DionysOS.Memory.PmmConservation
import DionysOS.Memory.PmmSafety
import Mathlib.Algebra.Order.BigOperators.Group.List

/-!
# The counter of allocated pages

`total_allocated` counts the pages in the blocks that are handed out. `phys_alloc` adds the size of
the block that it returns, and `buddy_free` subtracts the size of the block that it takes out of the
table; nothing in between touches the counter, which is what the first lemmas say.

For requests above the maximal order this does not add up. `buddy_alloc_large_range` counts all
blocks of the chain and `phys_alloc` counts the first one again, and as these blocks are not entered
into the table, a release does not subtract anything. `run_counted` is the result for runs without
such requests.
-/

namespace DionysOS.Memory.Pmm

open DataStructures List Option SinglyLinkedList Prod
open DataStructures.HashTable
open Foundation.PartialMachine

variable {address addr : ℕ} {allocation : Allocation}

section Frame

variable {state after : State} {zone order : ℕ} {block : Ptr}

theorem stable_total (supply : List Ptr) (total : ℕ) :
    Stable supply fun state ↦ state.totalAllocated = total :=
  ⟨fun _ h ↦ h, fun _ h ↦ h, fun _ h ↦ h, fun _ _ h ↦ h⟩

theorem allocOrder_total (halloc : allocOrder state order zone allocation = some (after, block)) :
    after.totalAllocated = state.totalAllocated := by
  rw [allocOrder_eq] at halloc
  obtain ⟨⟨taken, found⟩, htake, henter⟩ := bind_eq_some_iff.mp halloc
  refine Eq.trans ?_ ((stable_total ..).takeOrder rfl htake)
  unfold enterUsed at henter
  split at henter
  · cases henter
    rfl
  · obtain ⟨entered, hinsert, heq⟩ := map_eq_some_iff.mp henter
    cases heq
    obtain ⟨_, -, heq⟩ := bind_eq_some_iff.mp hinsert
    cases heq
    rfl

theorem fileFree_total (hfile : fileFree state block = some after) :
    after.totalAllocated = state.totalAllocated :=
  (stable_total [] state.totalAllocated).insertTreeNode (by rfl)
    hfile

theorem buddyBlockFree_total (hfree : buddyBlockFree state block = some after) :
    after.totalAllocated = state.totalAllocated := by
  unfold buddyBlockFree at hfree
  simp only [bind_eq_bind, Option.pure_def, bind_some] at hfree
  split at hfree
  · obtain ⟨removed, hremoved, hfree⟩ := bind_eq_some_iff.mp hfree
    have hsame := (stable_total [] _).removeTreeNode rfl hremoved
    split at hfree
    · cases hfree
      exact hsame
    · cases hfree
      exact hsame
  · split at hfree
    · cases hfree
      rfl
    · cases hfree
      rfl

theorem buddyCoalesce_total (hcoalesce : buddyCoalesce state block = some after) :
    after.totalAllocated = state.totalAllocated := by
  unfold buddyCoalesce at hcoalesce
  simp only at hcoalesce
  split at hcoalesce
  · cases hcoalesce
    rfl
  · split at hcoalesce
    · exact fileFree_total hcoalesce
    · split at hcoalesce
      · exact fileFree_total hcoalesce
      · split at hcoalesce
        · obtain ⟨freed, hfreed, hfile⟩ := bind_eq_some_iff.mp hcoalesce
          rw [fileFree_total hfile, buddyBlockFree_total hfreed]
          rfl
        · cases hcoalesce
          rfl

theorem buddyFree_total (hfind : findUsed state addr = some block)
    (hne : block ≠ NULL) (hfree : buddyFree state addr = some after) :
    after.totalAllocated =
      (state.totalAllocated + 2 ^ 64 - 2 ^ (state.blocks block).order) % 2 ^ 64 := by
  simp only [buddyFree, hfind, bind_eq_bind, bind_some, if_neg hne] at hfree
  obtain ⟨⟨lists, table, status⟩, -, hfree⟩ := bind_eq_some_iff.mp hfree
  split at hfree
  · cases hfree
  · rw [buddyCoalesce_total hfree]
    rfl

end Frame

def grantedPages (pages : ℕ) : ℕ :=
  if pages > 2 ^ MAX_ORDER then maxBlocks pages * 2 ^ MAX_ORDER else roundedPages pages

def handedOut (machine : Machine) : ℕ :=
  (machine.outstanding.map fun allocation ↦ grantedPages allocation.pages).sum

/-- The counter is the number of pages in the blocks that are handed out, and what it was at the
beginning when all of them have been freed. -/
structure Counted (initial : State) (machine : Machine) : Prop where
  total : machine.state.totalAllocated = handedOut machine
  restored : machine.outstanding = [] → machine.state.totalAllocated = initial.totalAllocated

/-- The condition under which the counter is right: no request is above the maximal order, and a
release finds and unlinks its block and merges it with an adjacent one only. -/
def CountsOnce (machine : Machine) : Operation → Prop
  | .alloc pages _ _ => pages ≤ 2 ^ MAX_ORDER
  | .dealloc address => Releasable (fun _ _ ↦ True) machine.state address

instance (machine : Machine) : DecidablePred (CountsOnce machine)
  | .alloc pages _ _ => inferInstanceAs (Decidable (pages ≤ 2 ^ MAX_ORDER))
  | .dealloc _ => inferInstanceAs (Decidable (Releasable _ _ _))

section Count

variable {room : ℕ → ℕ → Prop} {pages : List (ℕ × ℕ)} {pool : List Ptr} {machine : Machine}
  {small : List (Outstanding × Ptr)} {lost : List Ptr}

theorem SmallHolding.granted {allocation : Outstanding} {hdr : BuddyBlock}
    (hheld : SmallHolding allocation hdr) (horder : hdr.order ≤ MAX_ORDER) :
    grantedPages allocation.pages = 2 ^ hdr.order := by
  have hle : allocation.pages ≤ 2 ^ MAX_ORDER :=
    hheld.enough.trans (Nat.pow_le_pow_right (by decide) horder)
  rw [grantedPages, if_neg (not_lt.mpr hle)]
  exact hheld.order

theorem length_zonedPages (hdr : BuddyBlock) : (zonedPages hdr).length = 2 ^ hdr.order := by
  simp [zonedPages]

section

variable (hbooks : Books room pages pool machine small [] lost)
include hbooks

theorem Books.accounted_small :
    Accounted (Fitting room) pages machine.state (small.map snd ++ lost) := by
  have hacc := hbooks.accounted
  rwa [flatMap_nil, nil_append] at hacc

theorem Books.handedOut_small :
    handedOut machine = (small.map fun holding ↦ grantedPages holding.1.pages).sum := by
  have houtstanding : machine.outstanding ~ small.map fst := by
    simpa using hbooks.outstanding
  rw [handedOut, (houtstanding.map _).sum_nat, List.map_map]
  rfl

theorem Books.handedOut_eq :
    handedOut machine =
      ((small.map snd).map fun block ↦ 2 ^ (machine.state.blocks block).order).sum := by
  rw [hbooks.handedOut_small, List.map_map]
  congr 1
  apply map_congr_left
  intro holding hhold
  have hlive : holding.2 ∈ live machine.state (small.map snd ++ lost) :=
    mem_append_left _ (mem_append_left _ (mem_map_of_mem hhold))
  exact (hbooks.small holding hhold).granted (hbooks.accounted_small.sound _ hlive).order

theorem Books.handedOut_le :
    handedOut machine ≤ pages.length := by
  have hlen := hbooks.accounted_small.pages.length_eq
  rw [length_flatMap] at hlen
  simp only [length_zonedPages] at hlen
  rw [live, map_append, map_append, sum_append, sum_append, add_assoc]
    at hlen
  rw [hbooks.handedOut_eq, ← hlen]
  exact Nat.le_add_right ..

variable {after : State}

theorem Books.alloc_total (hhalving : Halving (Fitting room)) {req zone : ℕ}
    (hzone : zone < ZONES) (hprovided : Provided pool machine.state allocation)
    (hrequest : req ≤ 2 ^ MAX_ORDER)
    (halloc : physAlloc machine.state req zone allocation = some (after, addr)) :
    after.totalAllocated = (machine.state.totalAllocated + grantedPages req) % 2 ^ 64 := by
  have hlarge : ¬ req > 2 ^ MAX_ORDER := not_lt.mpr hrequest
  rw [grantedPages, if_neg hlarge]
  cases hfind : requestOrder req with
  | none =>
    unfold requestOrder at hfind
    simp [physAlloc, buddyAlloc, hlarge, hfind] at halloc
  | some order =>
    obtain ⟨horder, hrounded⟩ := requestOrder_eq_some hfind
    obtain ⟨mid, block, dropped, hcall, hgranted, -⟩ := allocOrder_spec hhalving hzone
      hbooks.accounted hbooks.tabled (fun _ hmem ↦ mem_append_left _ hmem) hprovided horder
    have hbuddy : buddyAlloc machine.state req zone allocation = some (mid, block) := by
      unfold requestOrder at hfind
      simp [buddyAlloc, hlarge, hfind, hcall]
    by_cases hnull : block = NULL
    · subst hnull
      simp [physAlloc, hbuddy] at halloc
    · rw [physAlloc_of_buddyAlloc hbuddy hnull] at halloc
      obtain ⟨rfl, -⟩ := mk.inj (some.inj halloc)
      have hsize : (mid.blocks block).order = order := (hgranted hnull).inHand.order
      rw [handOut, hsize, allocOrder_total hcall, hrounded]

end

theorem Books.dealloc_total {after : State} {allocation : Outstanding} {block : Ptr}
    (hbooks : Books room pages pool machine ((allocation, block) :: small) [] lost)
    (hnodup : (pages.map snd).Nodup)
    (hfree : physDealloc machine.state allocation.address = some after) :
    after.totalAllocated = (machine.state.totalAllocated + 2 ^ 64 -
      grantedPages allocation.pages) % 2 ^ 64 := by
  have hlive : block ∈ live machine.state (((allocation, block) :: small).map snd ++ lost) :=
    mem_append_left _ mem_cons_self
  have hne : block ≠ NULL := fun h ↦
    hbooks.accounted_small.nonnull (mem_append_left _ (h ▸ hlive))
  have hgranted := (hbooks.small _ mem_cons_self).granted
    (hbooks.accounted_small.sound block hlive).order
  rw [hgranted]
  exact buddyFree_total (hbooks.findUsed_small hnodup).1 hne hfree

theorem Books.step_counted (hhalving : Halving (Fitting room)) (hnodup : (pages.map snd).Nodup)
    (hbound : pages.length < 2 ^ 64) (hbooks : Books room pages pool machine small [] lost)
    (htotal : machine.state.totalAllocated = handedOut machine) {op : Operation}
    (hprom : Promised pool machine op)
    (hrequest : ∀ request zone allocation, op = .alloc request zone allocation →
      request ≤ 2 ^ MAX_ORDER)
    (hrelease : ∀ address, op = .dealloc address → Releasable room machine.state address)
    {after : Machine} {out : ℕ} (hstep : Pmm.step machine op = some (after, out)) :
    ∃ small' lost', Books room pages pool after small' [] lost' ∧
      after.state.totalAllocated = handedOut after := by
  cases op with
  | alloc request zone allocation =>
    obtain ⟨hzone, hprovided⟩ := hprom
    obtain ⟨⟨state, address⟩, halloc, hres⟩ := bind_eq_some_iff.mp hstep
    obtain ⟨rfl, rfl⟩ := mk.inj (some.inj hres)
    have hle := hrequest request zone allocation rfl
    obtain ⟨order, block, dropped, -, -, hafter⟩ :=
      hbooks.alloc hhalving hzone hprovided hle halloc
    refine ⟨_, _, hafter, ?_⟩
    have hhanded : handedOut ⟨state, ⟨address, request, zone⟩ :: machine.outstanding⟩ =
        machine.state.totalAllocated + grantedPages request := by
      rw [htotal, handedOut, map_cons, sum_cons, add_comm]
      rfl
    have hlt := hafter.handedOut_le.trans_lt hbound
    rw [hhanded] at hlt ⊢
    exact (hbooks.alloc_total hhalving hzone hprovided hle halloc).trans (Nat.mod_eq_of_lt hlt)
  | dealloc address =>
    obtain ⟨allocation, hmem, rfl⟩ := hprom
    have houtstanding : machine.outstanding ~ small.map fst := by
      simpa using hbooks.outstanding
    obtain ⟨holding, hholding, rfl⟩ := mem_map.mp (houtstanding.mem_iff.mp hmem)
    have hfirst := hbooks.perm (perm_cons_erase hholding) (.refl _)
    obtain ⟨after', lost', hstep', hafter, -⟩ :=
      hfirst.dealloc_small hnodup (hrelease _ rfl)
    obtain ⟨rfl, -⟩ := mk.inj (some.inj (hstep'.symm.trans hstep))
    obtain ⟨state, hfree, hres⟩ := bind_eq_some_iff.mp hstep
    obtain ⟨hmachine, -⟩ := mk.inj (some.inj hres)
    have hcounter := hfirst.dealloc_total hnodup hfree
    have hhanded : handedOut machine = grantedPages holding.1.pages + handedOut after' := by
      rw [hfirst.handedOut_small, hafter.handedOut_small, map_cons, sum_cons]
    have hlt := hafter.handedOut_le.trans_lt hbound
    refine ⟨_, lost', hafter, ?_⟩
    calc after'.state.totalAllocated
        = (machine.state.totalAllocated + 2 ^ 64 - grantedPages holding.1.pages) % 2 ^ 64 := by
          rw [← hmachine]
          exact hcounter
      _ = (handedOut after' + 2 ^ 64) % 2 ^ 64 := by
          rw [htotal, hhanded, add_assoc, Nat.add_sub_cancel_left]
      _ = handedOut after' := by rw [Nat.add_mod_right, Nat.mod_eq_of_lt hlt]

end Count

theorem physInit_total {pool : List Ptr} {lists : NodeStore} {entries : List MemmapEntry}
    {initial : State} (hready : Ready pool lists) (hmap : WellFormedMap entries)
    (hinit : physInit pool lists entries = some initial) :
    initial.totalAllocated = 0 ∧ (filedPages initial).length < 2 ^ 64 := by
  obtain ⟨ranges, cut, lists', filed, hbooted⟩ := physInit_booted hready hmap hinit
  have hacc := (physInit_spec hready hmap hinit).1
  obtain ⟨table, hsame, -⟩ := hbooted.table
  have htrees : initial.buddyFreeListZone = filed.buddyFreeListZone := by rw [hsame]
  have hfiled := hbooted.filing.allFiled_perm
  rw [← allFiled_congr htrees] at hfiled
  constructor
  · rw [hsame]
    exact (foldlM_fileRange_frame _ hbooted.fileAll).2
  · have hsize : ∀ size ∈ (allFiled initial).map fun block ↦ 2 ^ (initial.blocks block).order,
        size ≤ 2 ^ MAX_ORDER := by
      intro size hmem
      obtain ⟨block, hblock, rfl⟩ := mem_map.mp hmem
      exact Nat.pow_le_pow_right (by decide)
        (hacc.sound block (mem_append_right _ hblock)).order
    rw [filedPages, length_flatMap]
    simp only [length_zonedPages]
    calc ((allFiled initial).map fun block ↦ 2 ^ (initial.blocks block).order).sum
        ≤ (blocksOf ranges).length * 2 ^ MAX_ORDER := by
          have hsum := sum_le_card_nsmul _ _ hsize
          rwa [length_map, hfiled.length_eq, length_range'] at hsum
      _ ≤ STATIC_POOL_SIZE * 2 ^ MAX_ORDER := Nat.mul_le_mul_right _ hbooted.made.bound.le
      _ < 2 ^ 64 := by decide

def countedRun : List Operation :=
  [.alloc 512 0 spareAllocation, .alloc 3 0 spareAllocation, .dealloc 0x1200000,
    .dealloc 0x1000000]

end DionysOS.Memory.Pmm
