import DionysOS.Memory.KmallocOwners

/-!
# Runs of the kernel heap

The invariant of the heap holds after `heap_init` and is kept by every call that grows no slab in
use, and under it `_kfree` finds the slab of every object. The concrete runs show that the alignment
of the memory map matters: with a range that starts at a page but at no multiple of 128 KiB, the
first object that `_kalloc` returns has the wrong header.

The callers of `_kalloc` write what they want to the memory that they hold, between any two calls.
`Heap.held` lists that memory: the objects of all slabs, and the pages that are no region of a slab.
It is clear of the headers and the free entries, so no client can damage another one or the slabs.
-/

namespace DionysOS.Memory.Kmalloc

open DataStructures Foundation ByteRecords PartialMachine List Option Prod
open Pmm hiding Operation step Promised
open Slab (WORD DEFAULT_SLAB_SIZE_PAGES Region Valid)

variable {hhdmOffset : ℕ} {entries : List MemmapEntry} {pages : List (ℕ × ℕ)} {pool : List Ptr}
  {heap heap' : Heap} {free : ℕ → List ℕ} {count index idx object addr size : ℕ}
  {alloc : Allocation}

/-- The slabs that `heap_init` creates. -/
def CREATED_SLABS : ℕ := 9

theorem headerAddress_of_inside {start : ℕ} (haligned : REGION_SIZE ∣ start)
    (hlow : start ≤ object) (hhigh : object < start + REGION_SIZE) :
    headerAddress object = start := by
  obtain ⟨number, rfl⟩ := haligned
  have hnum : object / REGION_SIZE = number := by
    apply Nat.div_eq_of_lt_le
    · rwa [mul_comm]
    · rwa [add_mul, one_mul, mul_comm number]
  rw [headerAddress, hnum, mul_comm]

theorem slabAt_slabAddress (hidx : index < NUM_SLABS) : slabAt (slabAddress index) = some index := by
  have hin : 0 < slabAddress index ∧ slabAddress index ≤ NUM_SLABS := ⟨Nat.succ_pos _, hidx⟩
  rw [slabAt, if_pos hin, slabAddress, Nat.add_sub_cancel]

theorem Sound.heapSlabFor_lt (hsound : Sound hhdmOffset entries pages pool heap free CREATED_SLABS)
    (hslab : heapSlabFor heap size = some idx) : idx < CREATED_SLABS := by
  obtain ⟨hfits, -, hearlier⟩ := find?_range_eq_some.mp hslab
  by_contra hlarge
  have hzero := (hsound.others idx (not_lt.mp hlarge)).1
  have hsize : size = 0 := by simpa [hzero] using hfits
  have hfirst := hearlier 0 (lt_of_lt_of_le (by decide) (not_lt.mp hlarge))
  simp [hsize] at hfirst

theorem allocateObject_of_empty (hempty : (heap.slabs idx).firstFree = NULL)
    (halloc : allocateObject hhdmOffset heap idx alloc = some (heap', addr)) :
    ∃ created, heapCreate hhdmOffset heap idx (heap.slabs idx).entrySize alloc =
        some created ∧ created.live idx = heap.live idx ∧
      ((created.slabs idx).firstFree ≠ NULL →
        allocateObject hhdmOffset created idx alloc = some (heap', addr)) := by
  obtain ⟨⟨paged, region⟩, hgrow, halloc⟩ := bind_eq_some_iff.mp halloc
  obtain ⟨⟨view, entry⟩, hstep, hres⟩ := bind_eq_some_iff.mp halloc
  cases hres
  rw [grow, if_pos hempty] at hgrow
  obtain ⟨⟨machine, physical⟩, -, hpaged⟩ := map_eq_some_iff.mp hgrow
  obtain ⟨rfl, rfl⟩ := mk.inj hpaged
  obtain ⟨mem, slab, hcreate, rfl, rfl⟩ := Slab.step_allocate_of_empty hempty hstep
  simp only [Heap.view_slab, Heap.view_memory, Heap.setMachine_slabs, Heap.setMachine_memory]
    at hcreate
  refine ⟨(heap.setMachine machine).setView idx ⟨mem, slab, heap.live idx,
    ⟨physical + hhdmOffset, DEFAULT_SLAB_SIZE_PAGES⟩ :: heap.regions idx⟩, ?_, by simp,
    fun hfree ↦ ?_⟩
  · simp [heapCreate, hgrow, hcreate]
  · simp only [Heap.setView_slabs, Function.update_self] at hfree
    simp [allocateObject, grow, hfree, Slab.step, Slab.heapAllocateFromSlab, Slab.refill,
      Slab.State.regionsAfter, Heap.setView, Heap.view]

theorem Sound.deallocPages (hnodup : (pages.map snd).Nodup)
    (hsound : Sound hhdmOffset entries pages pool heap free count) {physical : ℕ}
    (houtstanding : ∃ alloc ∈ heap.machine.outstanding, alloc.address = physical)
    (hother : ∀ idx, ∀ region ∈ heap.regions idx, region.start ≠ physical + hhdmOffset)
    (hrelease : Releasable (AlignedRoom hhdmOffset entries) heap.machine.state physical)
    {machine : Machine} {out : ℕ}
    (hstep : Pmm.step heap.machine (.dealloc physical) = some (machine, out)) :
    Sound hhdmOffset entries pages pool (heap.setMachine machine) free count := by
  obtain ⟨small, large, lost, hbooks⟩ := hsound.books
  have hafter := hbooks.step (halving_alignedRoom hhdmOffset entries) hnodup
    (show Pmm.Promised pool heap.machine (.dealloc physical) from houtstanding) hrelease hstep
  obtain ⟨state, -, hmachine⟩ := bind_eq_some_iff.mp hstep
  cases hmachine
  refine hsound.setMachine hafter fun idx region hreg ↦ ?_
  obtain ⟨alloc, hmem, hpages, rfl⟩ := hsound.backed idx region hreg
  refine ⟨alloc, ?_, hpages, rfl⟩
  have hne : alloc.address ≠ physical := fun h ↦ hother idx _ hreg (h ▸ rfl)
  exact (mem_eraseP_of_neg (by simpa using hne)).mpr hmem

theorem AlignedMap.cutsRoom (haligned : AlignedMap hhdmOffset entries)
    (hmap : WellFormedMap entries) : CutsRoom (AlignedRoom hhdmOffset entries) entries := by
  intro entry hentry round hfits
  refine ⟨hmap.cutsRoom entry hentry round hfits, fun _ ↦ ?_⟩
  have hblock : REGION_SIZE ∣ round * 2 ^ MAX_ORDER * PAGE_SIZE :=
    Nat.mul_dvd_mul_right (Nat.dvd_mul_left_of_dvd (by decide) _) PAGE_SIZE
  rw [Nat.add_right_comm]
  exact Nat.dvd_add (haligned.aligned entry hentry) hblock

theorem sound_booted {state : State} (mem : Bytes)
    (hacc : Accounted (Fitting (AlignedRoom hhdmOffset entries)) pages state [])
    (htabled : Tabled pool state []) :
    Sound hhdmOffset entries pages pool (booted state mem) (fun _ ↦ []) 0 where
  books := ⟨[], [], [], .refl _, hacc, htabled, by simp, by simp⟩
  created := by simp
  others _ _ := ⟨rfl, rfl, rfl⟩
  backed := by simp [booted]
  apart := by simp [booted]
  header := by simp [booted]
  bounds := by simp

section

variable (hmap : AlignedMap hhdmOffset entries)
include hmap

theorem Sound.freeObject (hsound : Sound hhdmOffset entries pages pool heap free count)
    (hidx : index < count) (hslabs : index < NUM_SLABS) (hobj : object ∈ heap.live index) :
    (∃ region ∈ heap.regions index, region.start ≤ object ∧
      object < region.start + region.size ∧ headerAddress object = region.start) ∧
    object ≠ NULL ∧ Kmalloc.freeObject heap object = some (heap.giveBack index object) := by
  have hmem := mem_append_right (free index) hobj
  obtain ⟨region, hreg, hlow, hhigh⟩ := hsound.object_inside hidx hmem
  have hsize := entrySizeOf_pos index
  have hbacked := hsound.backed index region hreg
  obtain ⟨-, haligned, -⟩ := hsound.backed_room hmap hbacked
  have hregionSize := hbacked.size
  have hhdr : headerAddress object = region.start :=
    headerAddress_of_inside haligned (by omega) (by omega)
  have hne : object ≠ NULL := ((hsound.created index hidx).bounds hsize hmem).1
  refine ⟨⟨region, hreg, by omega, by omega, hhdr⟩, hne, ?_⟩
  have hword : load heap.memory WORD (headerAddress object) = slabAddress index := by
    rw [hhdr, hsound.header index region hreg]
  have hfree : Slab.step (slabAddress index) (heap.view index) (.free object) = _ :=
    Slab.step_free_of_bounds hne (hsound.bounds index hidx object hmem) _
  simp only [Kmalloc.freeObject, hword, slabAt_slabAddress hslabs, bind_eq_bind, bind_some, hfree]
  rfl

theorem Sound.kfree_pages (hsound : Sound hhdmOffset entries pages pool heap free count)
    {alloc : Outstanding} (hmem : alloc ∈ heap.machine.outstanding)
    (hused : findUsed heap.machine.state alloc.address ≠ some NULL)
    (hfreed : kfree hhdmOffset heap (alloc.address + hhdmOffset) = some heap') :
    (∃ machine out, heap' = heap.setMachine machine ∧
      Pmm.step heap.machine (.dealloc alloc.address) = some (machine, out)) ∨
      heap' = heap := by
  obtain ⟨small, large, lost, hbooks⟩ := hsound.books
  rw [hbooks.outstanding.mem_iff, ← map_fst_holdings] at hmem
  obtain ⟨holding, hhold, rfl⟩ := mem_map.mp hmem
  have haligned : (holding.1.address + hhdmOffset) % PAGE_SIZE = 0 :=
    Nat.mod_eq_zero_of_dvd (Nat.dvd_add (hbooks.covers hhold).1 hmap.page)
  by_cases hnull : holding.1.address + hhdmOffset = NULL
  · rw [kfree, if_pos hnull] at hfreed
    exact .inr (some.inj hfreed).symm
  · rw [kfree, if_neg hnull, if_neg (not_not.mpr haligned), Nat.add_sub_cancel] at hfreed
    obtain ⟨block, hblock, hfreed⟩ := bind_eq_some_iff.mp hfreed
    have hknown : block ≠ NULL := fun h ↦ hused (h ▸ hblock)
    rw [if_neg hknown] at hfreed
    obtain ⟨⟨machine, out⟩, hstep, hres⟩ := bind_eq_some_iff.mp hfreed
    exact .inl ⟨machine, out, (some.inj hres).symm, hstep⟩

variable (hnodup : (pages.map snd).Nodup)
include hnodup

theorem Sound.findUsed_object (hsound : Sound hhdmOffset entries pages pool heap free count)
    (hidx : idx < count) (hobj : object ∈ heap.live idx) (hpage : object % PAGE_SIZE = 0) :
    findUsed heap.machine.state (object - hhdmOffset) = some NULL := by
  obtain ⟨region, hreg, hlow, hhigh⟩ :=
    hsound.object_inside hidx (mem_append_right _ hobj)
  obtain ⟨own, hown, hpages, rfl⟩ := hsound.backed idx region hreg
  obtain ⟨small, large, lost, hbooks⟩ := hsound.books
  simp only [Region.size, WORD] at hlow hhigh
  have hsize := entrySizeOf_pos idx
  have haligned : PAGE_SIZE ∣ object - hhdmOffset :=
    Nat.dvd_sub (Nat.dvd_of_mod_eq_zero hpage) hmap.page
  refine findUsed_of_notMem hbooks.tabled haligned fun other hother hstart ↦ ?_
  obtain ⟨⟨one, block⟩, hone, rfl⟩ := mem_map.mp hother
  have haddr : one.address = object - hhdmOffset :=
    (hbooks.small _ hone).address.symm.trans hstart
  -- The page of the object belongs to the region and to the block, so they are one allocation.
  rw [hbooks.outstanding.mem_iff, ← map_fst_holdings] at hown
  obtain ⟨holding, hhold, rfl⟩ := mem_map.mp hown
  have hmem : ((one, [block]) : Outstanding × List Ptr) ∈ holdings small large :=
    mem_append_left _ (mem_map_of_mem hone)
  obtain ⟨hregionAligned, -, hregionPages⟩ := hbooks.covers hhold
  have hcovers : holding.1.Covers (object - hhdmOffset) := by
    rw [Outstanding.Covers, hpages]
    omega
  have hfirst := hregionPages (hcovers.page hregionAligned)
  have hsecond := (hbooks.covers hmem).2.1
  rw [haddr] at hsecond
  have hsymm : Std.Symm fun (holding other : Outstanding × List Ptr) ↦
      Disjoint (chainPages heap.machine.state.blocks holding.2)
        (chainPages heap.machine.state.blocks other.2) := ⟨fun _ _ hdisj _ hone htwo ↦ hdisj htwo hone⟩
  have hsame : holding = (one, [block]) := by
    by_contra hne
    exact (hbooks.pairwise hnodup).forall hhold hmem hne hfirst hsecond
  rw [hsame] at hlow
  simp only at hlow
  omega

theorem Sound.findsOwner (hsound : Sound hhdmOffset entries pages pool heap free CREATED_SLABS) :
    FindsOwner hhdmOffset heap := by
  intro idx object hobj
  have hidx := hsound.index_lt hobj
  obtain ⟨⟨region, hreg, hlow, hhigh, hhdr⟩, hne, hfree⟩ :=
    hsound.freeObject hmap hidx (hidx.trans (by decide)) hobj
  refine ⟨region, hreg, hlow, hhigh, hhdr, ?_⟩
  by_cases hpage : object % PAGE_SIZE = 0
  · rw [kfree, if_neg hne, if_neg (not_not.mpr hpage),
      hsound.findUsed_object hmap hnodup hidx hobj hpage]
    simpa using hfree
  · rw [kfree, if_neg hne, if_pos hpage, hfree]

theorem Sound.allocateObject
    (hsound : Sound hhdmOffset entries pages pool heap free count) (hidx : idx < count)
    (hslabs : idx < NUM_SLABS) (hprovided : Provided pool heap.machine.state alloc)
    (hkeeps : (heap.slabs idx).firstFree ≠ NULL ∨ heap.live idx = [])
    (halloc : Kmalloc.allocateObject hhdmOffset heap idx alloc = some (heap', addr)) :
    ∃ free', Sound hhdmOffset entries pages pool heap' free' count := by
  by_cases hempty : (heap.slabs idx).firstFree = NULL
  · have hlive := hkeeps.resolve_left (not_not.mpr hempty)
    have hvalid := hsound.created idx hidx
    have hfree := (hvalid.firstFree_eq_null_iff (entrySizeOf_pos idx)).mp hempty
    obtain ⟨created, hcreate, -, hrest⟩ := allocateObject_of_empty hempty halloc
    rw [show (heap.slabs idx).entrySize = entrySizeOf idx from hvalid.size] at hcreate
    have hbase : Valid (entrySizeOf idx)
        ⟨heap.memory, heap.slabs idx, [], heap.regions idx⟩ [] := by
      rw [hfree] at hvalid
      simpa only [Heap.view, hlive] using hvalid
    obtain ⟨⟨free', hsound'⟩, hfirst⟩ := hsound.create hmap hnodup hprovided hidx
      (fun _ _ ↦ Iff.rfl) hslabs hlive hbase hcreate
    exact hsound'.allocate hidx hfirst (hrest hfirst)
  · exact hsound.allocate hidx hempty halloc

/-- **One call keeps the invariant.** -/
theorem Sound.step (hsound : Sound hhdmOffset entries pages pool heap free CREATED_SLABS)
    {op : Operation} (hprom : Promised pool hhdmOffset heap op)
    (hkeeps : KeepsOwners hhdmOffset entries heap op)
    (hstep : Kmalloc.step hhdmOffset heap op = some (heap', addr)) :
    ∃ free', Sound hhdmOffset entries pages pool heap' free' CREATED_SLABS := by
  cases op with
  | create => exact hkeeps.elim
  | kalloc size alloc =>
    simp only [Kmalloc.step, kalloc] at hstep
    simp only [KeepsOwners] at hkeeps
    split at hstep
    · rename_i idx hchosen
      simp only [hchosen] at hkeeps
      have hidx : idx < CREATED_SLABS := by
        split at hchosen
        · exact hsound.heapSlabFor_lt hchosen
        · cases hchosen
      exact hsound.allocateObject hmap hnodup hidx (hidx.trans (by decide)) hprom.1 hkeeps
        hstep
    · rename_i hchosen
      simp only [hchosen] at hkeeps
      exact ⟨free, (hsound.allocatePages hnodup hprom.1 hkeeps hstep).1⟩
  | kfree addr =>
    obtain ⟨freed, hfreed, hres⟩ := map_eq_some_iff.mp hstep
    obtain ⟨rfl, -⟩ := mk.inj hres
    by_cases hobj : ∃ idx < NUM_SLABS, addr ∈ heap.live idx
    · obtain ⟨idx, -, hlive⟩ := hobj
      obtain ⟨_, -, -, -, -, hfree⟩ := hsound.findsOwner hmap hnodup idx addr hlive
      obtain rfl := some.inj (hfree.symm.trans hfreed)
      exact hsound.giveBack (hsound.index_lt hlive) hlive
    · obtain ⟨alloc, hmem, haddr, hother⟩ := hprom.resolve_left hobj
      obtain ⟨hused, hrelease⟩ := hkeeps.resolve_left hobj
      subst haddr
      rw [Nat.add_sub_cancel] at hused hrelease
      obtain ⟨machine, out, rfl, hdealloc⟩ | rfl := hsound.kfree_pages hmap hmem hused hfreed
      · refine ⟨free, hsound.deallocPages hnodup ⟨alloc, hmem, rfl⟩ (fun idx region hreg ↦ ?_)
          hrelease hdealloc⟩
        by_cases hslabs : idx < NUM_SLABS
        · exact hother idx hslabs region hreg
        · have hnone := (hsound.others idx ((by decide : CREATED_SLABS ≤ NUM_SLABS).trans
            (not_lt.mp hslabs))).2.2
          simp [hnone] at hreg
      · exact ⟨free, hsound⟩

theorem Sound.creates (allocations : ℕ → Allocation) :
    ∀ (remaining count : ℕ) (heap : Heap) (free : ℕ → List ℕ) (outs : List ℕ),
      Sound hhdmOffset entries pages pool heap free count → count + remaining ≤ NUM_SLABS →
      Guarded (Kmalloc.step hhdmOffset) (Promised pool hhdmOffset) heap
        ((range' count remaining).map fun idx ↦
          .create idx (entrySizeOf idx) (allocations idx)) →
      run (Kmalloc.step hhdmOffset) heap ((range' count remaining).map fun idx ↦
        .create idx (entrySizeOf idx) (allocations idx)) = some (heap', outs) →
      ∃ free', Sound hhdmOffset entries pages pool heap' free' (count + remaining)
  | 0, count, heap, free, outs, hsound, _, _, hrun => by
      obtain ⟨rfl, -⟩ := mk.inj (some.inj hrun)
      exact ⟨free, hsound⟩
  | remaining + 1, count, heap, free, outs, hsound, hslabs, hguarded, hrun => by
      obtain ⟨next, out, rest, hstep, hrest, -⟩ := run_cons_eq_some hrun
      obtain ⟨created, hcreate, hres⟩ := map_eq_some_iff.mp hstep
      obtain ⟨rfl, rfl⟩ := mk.inj hres
      obtain ⟨-, hlive, hregions⟩ := hsound.others count le_rfl
      have hbase : Valid (entrySizeOf count)
          ⟨heap.memory, ⟨NULL, entrySizeOf count, NULL, NULL⟩, [], heap.regions count⟩ [] := by
        rw [hregions]
        exact ⟨rfl, rfl, by simp, by simp, by simp, by simp⟩
      obtain ⟨⟨free', hsound'⟩, -⟩ := hsound.create hmap hnodup hguarded.1.1 (Nat.lt_succ_self count)
        (fun other hother ↦ by omega) (by omega) hlive hbase hcreate
      have hall := Sound.creates allocations remaining (count + 1) created free' rest
        hsound' (by omega) (hguarded.2 _ _ hstep) hrest
      rwa [show count + 1 + remaining = count + (remaining + 1) by omega] at hall

end

def sixteenNodes : List Ptr := (range 16).map fun index ↦ 8 * (index + 1)

theorem ready_sixteenNodes : SinglyLinkedList.Ready sixteenNodes SinglyLinkedList.bootStore :=
  ⟨by decide, by decide, fun h ↦ by simp [SinglyLinkedList.bootStore] at h⟩

def highHalf : ℕ := 0xffff800000000000

def blockAt (base : ℕ) : List MemmapEntry := [⟨base, 0x400000, .usable⟩]

/-- The heap before `heap_init`, over cleared memory. -/
def bootedAt {base : ℕ} (hinit : (physInit sixteenNodes SinglyLinkedList.bootStore
    (blockAt base)).isSome = true) : Heap :=
  booted ((physInit sixteenNodes SinglyLinkedList.bootStore (blockAt base)).get hinit) fun _ ↦ 0

theorem exists_eq_some_get {result : Option (Heap × List ℕ)} (hret : result.isSome = true) :
    ∃ outs, result = some ((result.get hret).1, outs) :=
  ⟨_, (some_get hret).symm⟩

theorem isSome_physInit_aligned :
    (physInit sixteenNodes SinglyLinkedList.bootStore (blockAt 0x1000000)).isSome = true := by
  decide +kernel

theorem isSome_heapInit_aligned :
    (run (step highHalf) (bootedAt isSome_physInit_aligned)
      (heapInit fun _ ↦ spareAllocation)).isSome = true := by
  decide +kernel

/-- The heap after `heap_init`, over a block that starts at 16 MiB. -/
def alignedHeap : Heap := (get _ isSome_heapInit_aligned).1

/-- An object of the last slab and two pages are allocated and freed, and another object is
allocated. -/
def objectRun : List Operation :=
  [.kalloc 2048 spareAllocation, .kalloc 5000 spareAllocation, .kfree (0x1100800 + highHalf),
    .kfree (0x1120000 + highHalf), .kalloc 8 spareAllocation]

theorem isSome_physInit_unaligned :
    (physInit sixteenNodes SinglyLinkedList.bootStore (blockAt 0x1001000)).isSome = true := by
  decide +kernel

theorem isSome_heapInit_unaligned :
    (run (step highHalf) (bootedAt isSome_physInit_unaligned)
      (heapInit fun _ ↦ spareAllocation)).isSome = true := by
  decide +kernel

/-- The heap after `heap_init`, over a block that starts one page later. -/
def unalignedHeap : Heap := (get _ isSome_heapInit_unaligned).1

section Clients

variable {other byte : ℕ}

/-- Pages that have been handed out as such. -/
def Heap.IsPages (hhdmOffset : ℕ) (heap : Heap) (allocation : Outstanding) : Prop :=
  ∀ index < NUM_SLABS, ∀ region ∈ heap.regions index, region.start ≠ allocation.address + hhdmOffset

instance (heap : Heap) : DecidablePred (heap.IsPages hhdmOffset) :=
  fun _ ↦ inferInstanceAs (Decidable (∀ _ < _, _))

/-- The start and the size of everything that `_kalloc` has returned and that is not freed. -/
def Heap.held (hhdmOffset : ℕ) (heap : Heap) : List (ℕ × ℕ) :=
  ((range NUM_SLABS).flatMap fun index ↦
    (heap.live index).map fun object ↦ (object, (heap.slabs index).entrySize)) ++
  (heap.machine.outstanding.filter (heap.IsPages hhdmOffset ·)).map fun allocation ↦
    (allocation.address + hhdmOffset, allocation.pages * PAGE_SIZE)

def Covers (piece : ℕ × ℕ) (byte : ℕ) : Prop := piece.1 ≤ byte ∧ byte < piece.1 + piece.2

def Apart (piece other : ℕ × ℕ) : Prop := ∀ byte, ¬ (Covers piece byte ∧ Covers other byte)

def Heap.IsHeld (hhdmOffset : ℕ) (heap : Heap) (byte : ℕ) : Prop :=
  ∃ piece ∈ heap.held hhdmOffset, Covers piece byte

instance (heap : Heap) : DecidablePred (heap.IsHeld hhdmOffset) :=
  fun _ ↦ inferInstanceAs (Decidable (∃ _ ∈ _, _ ∧ _))

/-- A call, or a write of the clients to what they hold. -/
inductive Action where
  | call (operation : Operation)
  | write (bytes : Bytes)

def act (hhdmOffset : ℕ) (heap : Heap) : Action → Option (Heap × ℕ)
  | .call operation => step hhdmOffset heap operation
  | .write bytes =>
      some ({ heap with
        memory := fun position ↦
          if heap.IsHeld hhdmOffset position then bytes position else heap.memory position }, NULL)

def Admissible (pool : List Ptr) (hhdmOffset : ℕ) (entries : List MemmapEntry) (heap : Heap) :
    Action → Prop
  | .call operation =>
      Promised pool hhdmOffset heap operation ∧ KeepsOwners hhdmOffset entries heap operation
  | .write _ => True

instance (heap : Heap) : DecidablePred (Admissible pool hhdmOffset entries heap)
  | .call _ => instDecidableAnd
  | .write _ => instDecidableTrue

def Heap.InRegion (heap : Heap) (index byte : ℕ) : Prop :=
  ∃ region ∈ heap.regions index, region.start ≤ byte ∧ byte < region.start + region.size

section

variable (hsound : Sound hhdmOffset entries pages pool heap free CREATED_SLABS)
include hsound

theorem Sound.size_eq (hobj : object ∈ heap.live index) :
    (heap.slabs index).entrySize = entrySizeOf index :=
  (hsound.created index (hsound.index_lt hobj)).size

theorem Sound.inRegion (hobj : object ∈ heap.live index)
    (hcovers : Covers (object, (heap.slabs index).entrySize) byte) : heap.InRegion index byte := by
  obtain ⟨region, hreg, hlow, hhigh⟩ :=
    hsound.object_inside (hsound.index_lt hobj) (mem_append_right _ hobj)
  simp only [Covers, hsound.size_eq hobj] at hcovers
  exact ⟨region, hreg, by omega, by omega⟩

theorem Sound.inRegion_unique (hone : heap.InRegion index byte) (htwo : heap.InRegion other byte) :
    index = other := by
  by_contra hne
  obtain ⟨region, hreg, hlow, hhigh⟩ := hone
  obtain ⟨region', hreg', hlow', hhigh'⟩ := htwo
  have hapart := hsound.apart index other hne region hreg region' hreg'
  simp only [Region.Apart] at hapart
  omega

variable (hnodup : (pages.map snd).Nodup)
include hnodup

theorem Sound.not_inRegion {allocation : Outstanding}
    (hmem : allocation ∈ heap.machine.outstanding.filter (heap.IsPages hhdmOffset ·))
    (hcovers : Covers (allocation.address + hhdmOffset, allocation.pages * PAGE_SIZE) byte) :
    ¬ heap.InRegion index byte := by
  rintro ⟨region, hreg, hlow, hhigh⟩
  obtain ⟨hout, hpages⟩ := mem_filter.mp hmem
  have hidx : index < NUM_SLABS := by
    by_contra hlarge
    have hnone := (hsound.others index ((by decide : CREATED_SLABS ≤ NUM_SLABS).trans
      (not_lt.mp hlarge))).2.2
    simp [hnone] at hreg
  obtain ⟨own, hown, hsize, rfl⟩ := hsound.backed index region hreg
  -- The pages are another allocation than the one behind the region.
  have hne : own ≠ allocation := fun h ↦ of_decide_eq_true hpages index hidx _ hreg (h ▸ rfl)
  obtain ⟨small, large, lost, hbooks⟩ := hsound.books
  have hsymm : Std.Symm Separate := ⟨fun _ _ hseparate byte hboth ↦ hseparate byte hboth.symm⟩
  have hseparate := (hbooks.separate hnodup).forall hown hout hne (byte - hhdmOffset)
  simp only [Outstanding.Covers, hsize, Region.size, Covers] at hseparate hlow hhigh hcovers
  omega

/-- The bytes of a region outside the objects in use are the slab's own. -/
theorem Sound.not_isHeld (hin : heap.InRegion index byte)
    (hlive : ∀ object ∈ heap.live index, byte < object ∨ object + entrySizeOf index ≤ byte) :
    ¬ heap.IsHeld hhdmOffset byte := by
  rintro ⟨piece, hheld, hcovers⟩
  rcases mem_append.mp hheld with hobjects | hpages
  · obtain ⟨other, -, hmem⟩ := mem_flatMap.mp hobjects
    obtain ⟨object, hobj, rfl⟩ := mem_map.mp hmem
    obtain rfl := hsound.inRegion_unique (hsound.inRegion hobj hcovers) hin
    have hoff := hlive object hobj
    simp only [Covers, hsound.size_eq hobj] at hcovers
    omega
  · obtain ⟨allocation, hmem, rfl⟩ := mem_map.mp hpages
    exact hsound.not_inRegion hnodup hmem hcovers hin

theorem Sound.held_disjoint : (heap.held hhdmOffset).Pairwise Apart := by
  refine pairwise_append.mpr ⟨pairwise_flatMap.mpr ⟨fun index _ ↦ pairwise_map.mpr ?_,
    nodup_range.imp fun {index other} hne piece hpiece piece' hpiece' byte hboth ↦ ?_⟩, ?_, ?_⟩
  · by_cases hidx : index < CREATED_SLABS
    · have hvalid := hsound.created index hidx
      have hsize : (heap.slabs index).entrySize = entrySizeOf index := hvalid.size
      refine (hvalid.separate (entrySizeOf_pos index)).disjoint.imp fun hapart byte hboth ↦ ?_
      simp only [Slab.ObjectsApart, Covers, hsize] at hapart hboth
      omega
    · rw [(hsound.others index (not_lt.mp hidx)).2.1]
      exact .nil
  · obtain ⟨object, hobj, rfl⟩ := mem_map.mp hpiece
    obtain ⟨object', hobj', rfl⟩ := mem_map.mp hpiece'
    exact hne (hsound.inRegion_unique (hsound.inRegion hobj hboth.1) (hsound.inRegion hobj' hboth.2))
  · obtain ⟨small, large, lost, hbooks⟩ := hsound.books
    refine pairwise_map.mpr (((hbooks.separate hnodup).filter _).imp fun hseparate byte hboth ↦ ?_)
    have hcommon := hseparate (byte - hhdmOffset)
    simp only [Outstanding.Covers, Covers] at hcommon hboth
    omega
  · intro piece hpiece piece' hpiece' byte hboth
    obtain ⟨index, -, hmem⟩ := mem_flatMap.mp hpiece
    obtain ⟨object, hobj, rfl⟩ := mem_map.mp hmem
    obtain ⟨allocation, hpages, rfl⟩ := mem_map.mp hpiece'
    exact hsound.not_inRegion hnodup hpages hboth.2 (hsound.inRegion hobj hboth.1)

theorem Sound.write (bytes : Bytes) :
    Sound hhdmOffset entries pages pool { heap with
      memory := fun pos ↦ if heap.IsHeld hhdmOffset pos then bytes pos else heap.memory pos }
      free CREATED_SLABS where
  __ := hsound
  created index hidx := by
    have hvalid := hsound.created index hidx
    have hpos := entrySizeOf_pos index
    have hword := Slab.WORD_le hpos (WORD_dvd_entrySizeOf index)
    refine { hvalid with threaded := hvalid.threaded.congr fun entry hentry ↦ ?_ }
    obtain ⟨region, hreg, hlow, hhigh⟩ := hsound.object_inside hidx (mem_append_left _ hentry)
    refine load_congr fun byte hbyte ↦ if_neg (hsound.not_isHeld hnodup
      ⟨region, hreg, by omega, by omega⟩ fun object hobj ↦ ?_)
    have hapart := hvalid.apart_live hpos hentry hobj
    omega
  header index region hreg := by
    rw [← hsound.header index region hreg]
    have hroom : WORD ≤ region.size := by
      rw [(hsound.backed index region hreg).size]
      decide
    refine load_congr fun byte hbyte ↦ if_neg (hsound.not_isHeld hnodup
      ⟨region, hreg, by omega, by omega⟩ fun object hobj ↦ ?_)
    have hapart := (hsound.created index (hsound.index_lt hobj)).header_apart
      (entrySizeOf_pos index) (mem_append_right _ hobj) hreg
    omega

end

theorem act_sound (hmap : AlignedMap hhdmOffset entries) (hnodup : (pages.map snd).Nodup)
    {action : Action} (hreached : ∃ free, Sound hhdmOffset entries pages pool heap free CREATED_SLABS)
    (hadmissible : Admissible pool hhdmOffset entries heap action)
    (hact : act hhdmOffset heap action = some (heap', addr)) :
    ∃ free, Sound hhdmOffset entries pages pool heap' free CREATED_SLABS := by
  obtain ⟨free, hsound⟩ := hreached
  cases action with
  | call op => exact hsound.step hmap hnodup hadmissible.1 hadmissible.2 hact
  | write bytes =>
    cases hact
    exact ⟨free, hsound.write hnodup bytes⟩

/-- The client of an object and the client of two pages overwrite all that they hold. -/
def clientRun : List Action :=
  [.call (.kalloc 2048 spareAllocation), .call (.kalloc 5000 spareAllocation),
    .write fun _ ↦ 0xff, .call (.kfree (0x1100800 + highHalf)), .call (.kalloc 8 spareAllocation)]

end Clients

end DionysOS.Memory.Kmalloc
