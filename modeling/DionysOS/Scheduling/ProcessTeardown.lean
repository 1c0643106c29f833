import DionysOS.Scheduling.Process

/-!
# No process is freed once

`free_process` releases the list of handles of every process twice. A process can be made on a kernel
with enough pages for its tables, and without files `free_process` returns; so this does happen.
-/

namespace DionysOS.Scheduling

open DataStructures DoublyLinkedList Memory.Paging Foundation.RadixTable List Function BitVec

section NeverBalanced

variable {layout : KernelLayout} {vfsRoot root : Ptr} {kernel made opened after : Kernel}
  {fresh : Addresses} {user : Bool} {parent : Option Process} {proc : Ptr} {kernelTopLevel : Word}

theorem handleListOf_allocProcess
    (halloc : allocProcess layout root kernel fresh user parent = some made) :
    made.handleListOf fresh.process = fresh.handleListHeader := by
  simp only [allocProcess, Option.bind_eq_bind, Option.bind_eq_some_iff, Option.some.injEq] at halloc
  obtain ⟨machine, -, rfl⟩ := halloc
  cases parent <;> simp [Kernel.handleListOf]

theorem handleListOf_openFiles : ∀ {files : List (Ptr × Ptr)} {made : Kernel},
    openFiles made proc files = some opened →
      opened.handleListOf proc = made.handleListOf proc
  | [], made, hopen => by rw [Option.some.inj hopen]
  | file :: files, made, hopen => by
      simp only [openFiles, Option.bind_eq_bind, Option.bind_eq_some_iff] at hopen
      obtain ⟨next, hnext, hopen⟩ := hopen
      simp only [openFile, Option.bind_eq_bind, Option.bind_eq_some_iff, Option.some.injEq] at hnext
      obtain ⟨_, -, rfl⟩ := hnext
      exact (handleListOf_openFiles hopen).trans rfl

theorem count_released_freeProcess (hhdr : kernel.handleListOf process ≠ NULL)
    (hfree : freeProcess kernelTopLevel kernel process = some after) :
    2 ≤ after.released.count (.object (kernel.handleListOf process)) := by
  simp only [freeProcess, Option.bind_eq_bind, Option.bind_eq_some_iff] at hfree
  obtain ⟨mid, hmid, hfree⟩ := hfree
  have hstart := ((Grows.refl { kernel with released := [], stale := [] }).use process).kfree
    (kernel.processes process).kernelStack
  have hgrows := hstart.freeOwnPageMap hmid
  have hsame : mid.handleListOf process = kernel.handleListOf process := by
    rw [Kernel.handleListOf, hgrows.processes, hgrows.handleLists]
    rfl
  rw [← hsame] at hhdr ⊢
  exact count_released_freeHandles hhdr hfree

/-- **No process is freed as it should be**, whatever files it has opened. -/
theorem freeProcess_not_balanced {files : List (Ptr × Ptr)} (hheader : fresh.handleListHeader ≠ NULL)
    (halloc : allocProcess layout vfsRoot kernel fresh true parent = some made)
    (hopen : openFiles made fresh.process files = some opened) :
    ¬∃ after, freeProcess kernelTopLevel opened fresh.process = some after ∧
      Balanced (allocations opened fresh.process files) after := by
  rintro ⟨after, hfree, hbalanced⟩
  have hlist : opened.handleListOf fresh.process = fresh.handleListHeader :=
    (handleListOf_openFiles hopen).trans (handleListOf_allocProcess halloc)
  have htwice := count_released_freeProcess (hlist ▸ hheader) hfree
  have honce := hbalanced.once (.object (opened.handleListOf fresh.process)) (by simp [allocations])
  omega

end NeverBalanced

variable {topLevel : Word} {machine : Memory.Paging.Machine} {kernel : Kernel} {proc : Ptr}
  {i : ℕ}

theorem leafAt_zeroed {mem : TableMemory} (steps : List Index)
    (hsteps : steps ≠ []) (idx : Index) :
    leafAt (update mem topLevel fun _ ↦ 0) topLevel steps idx = none := by
  obtain ⟨first, rest, rfl⟩ := exists_cons_of_ne_nil hsteps
  rw [leafAt, entryAt, reach, update_self, next_zero]
  rfl

theorem ready_zeroed (hnodup : machine.supply.Nodup)
    (haddr : ∀ page ∈ machine.supply, PTE_ADDR page = page) (hfresh : topLevel ∉ machine.supply) :
    Ready { machine with memory := update machine.memory topLevel fun _ ↦ 0 } topLevel := by
  have hreach : ∀ {steps : List Index} {page : Word},
      reach next (update machine.memory topLevel fun _ ↦ 0) topLevel steps = some page →
        steps = [] ∧ page = topLevel := by
    intro steps page h
    cases steps with
    | nil => exact ⟨rfl, (Option.some.inj h).symm⟩
    | cons idx steps =>
      rw [reach, update_self, next_zero] at h
      cases h
  refine ⟨fun steps steps' page _ _ h h' ↦ ?_, hnodup, haddr, fun page hpage steps _ h ↦ ?_⟩
  · rw [(hreach h).1, (hreach h').1]
  · exact hfresh ((hreach h).2 ▸ hpage)

theorem allocPageMap_returns {layout : KernelLayout} (hlayout : layout.Upper)
    (htopLevel : topLevel ≠ 0) (hnodup : machine.supply.Nodup)
    (haddr : ∀ page ∈ machine.supply, PTE_ADDR page = page) (hfresh : topLevel ∉ machine.supply)
    (hsupply : layout.tableBound + 9 ≤ machine.supply.length) (stack : Word) :
    ∃ after, allocPageMap layout machine topLevel stack true = some after := by
  have hready := ready_zeroed hnodup haddr hfresh
  obtain ⟨_, mapped, hmapped, hlen, hlower, hlast⟩ := mapKernelAddressSpace_spec hlayout.bounded
    hready htopLevel (show _ ≤ machine.supply.length by omega)
  -- The stack is three pages of the lower half, none of which is mapped yet.
  let bottom := USER_STACK_TOP - DEFAULT_STACK_SIZE
  have hcount : pageCount bottom DEFAULT_STACK_SIZE = 2 := by decide
  have hstack : ∀ i ≤ 2, (P4DX (pageAfter (PGROUNDDOWN bottom) i)).val < 256 := by decide
  have hbound : pageCount bottom DEFAULT_STACK_SIZE < 2 ^ 36 := by
    decide
  have henough : 3 * (pageCount bottom DEFAULT_STACK_SIZE + 1) ≤ mapped.supply.length := by
    change machine.supply.length ≤ _ at hlen
    omega
  have habsent : ∀ i ≤ pageCount bottom DEFAULT_STACK_SIZE,
      leafAt mapped.memory topLevel (path (pageAfter (PGROUNDDOWN bottom) i))
        (PTX (pageAfter (PGROUNDDOWN bottom) i)) = none := by
    intro i hi
    rw [hcount] at hi
    rw [hlower hlayout _ (hstack i hi)]
    exact leafAt_zeroed _ (cons_ne_nil _ _) _
  obtain ⟨after, hafter, -⟩ := @mapPages_spec mapped topLevel _ (PTE_RW ||| PTE_NX ||| PTE_U) _
    hlast.ready htopLevel stack hbound henough fun _ ↦ habsent
  refine ⟨after, ?_⟩
  simp only [allocPageMap, Option.bind_eq_bind, Option.bind_eq_some_iff, if_true]
  exact ⟨mapped, hmapped, (after, 0), hafter, rfl⟩

theorem Grows.destroyList_returns {mid : Kernel} {list : Ptr} (h : Grows kernel mid)
    (hempty : (kernel.lists list).head = NULL) (freeData : Bool) :
    ∃ after, mid.destroyList list freeData = some after := by
  simp only [Kernel.destroyList, h.lists, hempty]
  split
  · exact ⟨_, rfl⟩
  · cases (kernel.lists list).nodeCount <;> exact ⟨_, rfl⟩

theorem freePageMap_returns (hempty : (kernel.lists
      (kernel.pageMaps (kernel.processes proc).pageMap).vmRegions).head = NULL) :
    ∃ after, freePageMap kernel proc = some after := by
  set pageMap := (kernel.processes proc).pageMap with hpageMap
  set topLevel := (kernel.pageMaps pageMap).topLevel with htopLevel
  have htables := (((Grows.refl kernel).use proc).use pageMap).archDeallocPageTable topLevel
  have hgrows := ((((htables.use proc).use pageMap).freeVirtualMap topLevel).use proc).use pageMap
  obtain ⟨destroyed, hdestroy⟩ := hgrows.destroyList_returns hempty true
  simp only [freePageMap, Option.bind_eq_bind, Option.bind_eq_some_iff]
  exact ⟨_, destroyed, hdestroy, rfl⟩

theorem freeHandles_returns (hempty : (kernel.lists (kernel.handleListOf proc)).head = NULL) :
    ∃ after, freeHandles kernel proc = some after := by
  have hgrows := ((Grows.refl kernel).use proc).use (kernel.processes proc).handleList
  obtain ⟨destroyed, hdestroy⟩ := hgrows.destroyList_returns hempty true
  simp only [freeHandles, Option.bind_eq_bind, Option.bind_eq_some_iff]
  exact ⟨_, destroyed, hdestroy, rfl⟩

theorem freeProcess_returns (kernelTopLevel : Word) (hregions : (kernel.lists
      (kernel.pageMaps (kernel.processes proc).pageMap).vmRegions).head = NULL)
    (hhandles : (kernel.lists (kernel.handleListOf proc)).head = NULL) :
    ∃ after, freeProcess kernelTopLevel kernel proc = some after := by
  set start := { kernel with released := [], stale := [] }
  set begun := (start.use proc).kfree (kernel.processes proc).kernelStack
  have hbegun : Grows start begun := ((Grows.refl start).use proc).kfree _
  have hused := (hbegun.use proc).use (begun.processes proc).pageMap
  have hpageMap : ∃ mid, freeOwnPageMap kernelTopLevel begun proc = some mid := by
    simp only [freeOwnPageMap]
    split
    · refine freePageMap_returns ?_
      rw [hused.lists, hused.pageMaps, hused.processes]
      exact hregions
    · exact ⟨_, rfl⟩
  obtain ⟨mid, hmid⟩ := hpageMap
  have hgrows := hbegun.freeOwnPageMap hmid
  have hempty : (mid.lists (mid.handleListOf proc)).head = NULL := by
    rw [Kernel.handleListOf, hgrows.lists, hgrows.handleLists, hgrows.processes]
    exact hhandles
  obtain ⟨after, hafter⟩ := freeHandles_returns hempty
  simp only [freeProcess, Option.bind_eq_bind, Option.bind_eq_some_iff]
  exact ⟨after, mid, hmid, hafter⟩

/-- A kernel of three pages, with one page of memory above that of the users. -/
def bootLayout : KernelLayout where
  kernelMin := 0xFFFFFFFF80000000
  kernelPhysMin := 0x200000
  textStart := 0xFFFFFFFF80000000
  textEnd := 0xFFFFFFFF80001000
  rodataStart := 0xFFFFFFFF80001000
  rodataEnd := 0xFFFFFFFF80002000
  dataStart := 0xFFFFFFFF80002000
  dataEnd := 0xFFFFFFFF80003000
  hhdmOffset := 0xFFFF800000000000
  highestUserPhysAddr := 0x100000000
  highestAddress := 0x100001000

theorem bootLayout_upper : bootLayout.Upper :=
  ⟨⟨by decide, by decide⟩, ⟨by decide, by decide⟩, ⟨by decide, by decide⟩, ⟨by decide, by decide⟩,
    ⟨by decide, by decide⟩⟩

theorem bootLayout_tableBound : bootLayout.tableBound = 3145755 := by decide

def bootPages : ℕ := 4000000

def bootPage (i : ℕ) : Word := BitVec.ofNat 64 (0x200000000 + 4096 * i)

def bootMachine : Memory.Paging.Machine := ⟨fun _ _ ↦ 0, (List.range bootPages).map bootPage⟩

theorem toNat_bootPage (hi : i < bootPages) :
    (bootPage i).toNat = 0x200000000 + 4096 * i := by
  unfold bootPages at hi
  rw [bootPage, toNat_ofNat]
  omega

theorem mem_bootMachine {page : Word} : page ∈ bootMachine.supply ↔
    ∃ i < bootPages, bootPage i = page := by
  simp only [bootMachine, mem_map, mem_range]

theorem bootPage_aligned (hi : i < bootPages) :
    bootPage i &&& 0xFFF#64 = 0 ∧ (bootPage i).toNat < 2 ^ 52 := by
  have hnat := toNat_bootPage hi
  unfold bootPages at hi
  refine ⟨eq_of_toNat_eq ?_, by omega⟩
  rw [toNat_and, hnat, show (0xFFF#64).toNat = 2 ^ 12 - 1 by decide,
    Nat.and_two_pow_sub_one_eq_mod]
  show _ = 0
  omega

theorem PTE_ADDR_bootPage (hi : i < bootPages) : PTE_ADDR (bootPage i) = bootPage i :=
  PTE_ADDR_of_aligned (bootPage_aligned hi).1 (bootPage_aligned hi).2

theorem nodup_bootMachine : bootMachine.supply.Nodup := by
  simp only [bootMachine]
  refine Nodup.map_on (fun i hi j hj hpages ↦ ?_) nodup_range
  have hnat := congrArg BitVec.toNat hpages
  rw [toNat_bootPage (mem_range.mp hi), toNat_bootPage (mem_range.mp hj)] at hnat
  omega

theorem notMem_bootMachine : (0x1000 : Word) ∉ bootMachine.supply := by
  intro h
  obtain ⟨i, hi, hpage⟩ := mem_bootMachine.mp h
  have hnat := (toNat_bootPage hi).symm.trans (congrArg BitVec.toNat hpage)
  rw [show (0x1000 : Word).toNat = 4096 by decide] at hnat
  omega

def bootKernel : Kernel where
  processes _ := ⟨0, 0, 0, 0, 0, 0, 0, 0, 0, 0, 0⟩
  handleLists _ := NULL
  pageMaps _ := ⟨0, NULL⟩
  registerStates _ := 0
  lists _ := DoublyLinkedList.init
  nodes _ := Node.zero
  machine := bootMachine
  userProcIds := 0
  released := []
  stale := []

def bootAddresses : Addresses := ⟨1, 2, 3, 4, 5, 0x1000, 6, 7, 0x100000⟩

theorem allocProcess_bootKernel :
    ∃ made, allocProcess bootLayout 8 bootKernel bootAddresses true none = some made := by
  have haddr : ∀ page ∈ bootMachine.supply, PTE_ADDR page = page := by
    intro page hpage
    obtain ⟨i, hi, rfl⟩ := mem_bootMachine.mp hpage
    exact PTE_ADDR_bootPage hi
  have hlen : bootLayout.tableBound + 9 ≤ bootMachine.supply.length := by
    rw [bootLayout_tableBound, bootMachine, length_map, length_range]
    decide
  obtain ⟨machine, hmachine⟩ := allocPageMap_returns bootLayout_upper (by decide) nodup_bootMachine
    haddr notMem_bootMachine hlen bootAddresses.stack
  simp only [allocProcess, Option.bind_eq_bind, Option.bind_eq_some_iff]
  exact ⟨_, machine, hmachine, rfl⟩

theorem freeProcess_not_balanced_boot : ∃ made,
    allocProcess bootLayout 8 bootKernel bootAddresses true none = some made ∧
      ¬∃ after, freeProcess 0x3000 made 1 = some after ∧ Balanced (allocations made 1 []) after := by
  obtain ⟨made, hmade⟩ := allocProcess_bootKernel
  exact ⟨made, hmade, freeProcess_not_balanced (by decide) hmade rfl⟩

/-- A process is made and freed, and its list of handles is released twice. -/
theorem freeProcess_boot : ∃ made after,
    allocProcess bootLayout 8 bootKernel bootAddresses true none = some made ∧
      freeProcess 0x3000 made 1 = some after ∧ 2 ≤ after.released.count (.object 4) ∧
      ¬Balanced (allocations made 1 []) after := by
  obtain ⟨made, hmade⟩ := allocProcess_bootKernel
  have hhdr : made.handleListOf 1 = 4 := handleListOf_allocProcess hmade
  have hempty : ∀ list, (made.lists list).head = NULL := by
    simp only [allocProcess, Option.bind_eq_bind, Option.bind_eq_some_iff, Option.some.injEq] at hmade
    obtain ⟨machine, -, rfl⟩ := hmade
    intro list
    simp only [update_apply, bootKernel]
    split
    · rfl
    · split <;> rfl
  obtain ⟨after, hafter⟩ := freeProcess_returns 0x3000 (hempty _) (hempty _)
  have hnull : made.handleListOf 1 ≠ NULL := by
    rw [hhdr]
    decide
  have htwice := count_released_freeProcess hnull hafter
  refine ⟨made, after, hmade, hafter, hhdr ▸ htwice, fun hbalanced ↦ ?_⟩
  have honce := hbalanced.once (.object (made.handleListOf 1)) (by simp [allocations])
  omega

end DionysOS.Scheduling
