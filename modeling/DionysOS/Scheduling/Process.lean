import DionysOS.DataStructures.DoublyLinkedList
import DionysOS.Memory.FreePageTables
import DionysOS.Memory.MapPages

/-!
# Making and freeing a process

`alloc_process` and `free_process` of `process.c`. The addresses that `kzmalloc` and `umalloc` return
are given, and the tables come from the supply of the page tables. `free_process` keeps a record of
what it releases, and of each object that it uses after its release. `kfree` leaves the fields of an
object that are used here as they are; the slab allocator writes into the first word of an object, and
none of the fields that are read late is there. What the allocators do with a second release is not
modelled.

The header of a list is released by `doubly_linked_list_destroy`, and `free_process` releases it once
more: no process is freed with each of its allocations released once.
-/

namespace DionysOS.Scheduling

open DataStructures DoublyLinkedList Memory.Paging List Option Function

def DEFAULT_STACK_SIZE : Word := 0x2000#64
def HIGH : ℕ := 4
def USER_PROCESS : ℕ := 2

/-- What `kzmalloc` and `umalloc` hand out: objects, tables, and pages for users. -/
inductive Block where
  | object (address : Ptr)
  | table (page : Word)
  | user (page : Word)
deriving DecidableEq, Repr

/-- `struct process`, as far as it is used here. -/
structure Process where
  processId : ℕ
  parentProcessId : ℕ
  priority : ℕ
  effectivePriority : ℕ
  processType : ℕ
  currentWorkingDir : Ptr
  stack : Word
  kernelStack : Ptr
  handleList : Ptr
  pageMap : Ptr
  currentRegisterState : Ptr

structure VirtMap where
  topLevel : Word
  vmRegions : Ptr

/-- The objects, and the record of a call of `free_process`. -/
structure Kernel where
  processes : Ptr → Process
  /-- `struct virtual_handle_list`: its list of handles. -/
  handleLists : Ptr → Ptr
  pageMaps : Ptr → VirtMap
  /-- `struct register_state`: its stack pointer. -/
  registerStates : Ptr → ℕ
  lists : Ptr → DoublyLinkedList
  nodes : NodeMemory
  machine : Memory.Paging.Machine
  userProcIds : ℕ
  released : List Block
  stale : List Block

/-- The results of the allocations of `alloc_process`. -/
structure Addresses where
  process : Ptr
  kernelStack : Ptr
  handleList : Ptr
  handleListHeader : Ptr
  pageMap : Ptr
  topLevel : Word
  vmRegions : Ptr
  registerState : Ptr
  stack : Word

/-- The page tables of a new process: an empty top level, the kernel, and the user stack. -/
def allocPageMap (layout : KernelLayout) (machine : Memory.Paging.Machine) (topLevel stack : Word) (user : Bool) :
    Option Memory.Paging.Machine := do
  let zeroed := { machine with memory := update machine.memory topLevel fun _ ↦ 0 }
  let machine ← mapKernelAddressSpace layout zeroed topLevel
  if user then
    let (machine, _) ← mapPages machine topLevel stack (USER_STACK_TOP - DEFAULT_STACK_SIZE)
      (PTE_RW ||| PTE_NX ||| PTE_U) DEFAULT_STACK_SIZE
    some machine
  else some machine

/-- `alloc_process`; `vfsRoot` is the address of `vfs_root`. -/
def allocProcess (layout : KernelLayout) (vfsRoot : Ptr) (kernel : Kernel) (fresh : Addresses)
    (user : Bool) (parent : Option Process) : Option Kernel := do
  let machine ← allocPageMap layout kernel.machine fresh.topLevel fresh.stack user
  let stack := if user then fresh.stack else 0
  let process : Process := match parent with
    | some parent => ⟨kernel.userProcIds % 2 ^ 16, parent.processId, parent.priority, parent.effectivePriority,
        USER_PROCESS, parent.currentWorkingDir, stack, fresh.kernelStack, fresh.handleList,
        fresh.pageMap, fresh.registerState⟩
    | none => ⟨kernel.userProcIds % 2 ^ 16, 0, HIGH, HIGH, USER_PROCESS, vfsRoot, stack, fresh.kernelStack,
        fresh.handleList, fresh.pageMap, fresh.registerState⟩
  let rsp := if parent.isSome then 0 else fresh.kernelStack + DEFAULT_STACK_SIZE.toNat
  some { kernel with
    processes := update kernel.processes fresh.process process
    handleLists := update kernel.handleLists fresh.handleList fresh.handleListHeader
    pageMaps := update kernel.pageMaps fresh.pageMap ⟨fresh.topLevel, fresh.vmRegions⟩
    registerStates := update kernel.registerStates fresh.registerState rsp
    lists := update (update kernel.lists fresh.vmRegions DoublyLinkedList.init)
      fresh.handleListHeader DoublyLinkedList.init
    machine := machine
    userProcIds := (kernel.userProcIds + 1) % 2 ^ 64 }

def Kernel.handleListOf (kernel : Kernel) (process : Ptr) : Ptr :=
  kernel.handleLists (kernel.processes process).handleList

/-- What `open` adds to a process: a handle, and a node for it. -/
def openFile (kernel : Kernel) (process : Ptr) (file : Ptr × Ptr) : Option Kernel := do
  let header := kernel.handleListOf process
  let (heap, list) ← insertHead ⟨kernel.nodes, []⟩ (kernel.lists header) file.1 file.2
  some { kernel with nodes := heap.nodes, lists := update kernel.lists header list }

def openFiles (kernel : Kernel) (process : Ptr) : List (Ptr × Ptr) → Option Kernel
  | [] => some kernel
  | file :: files => do openFiles (← openFile kernel process file) process files

namespace Kernel

def use (kernel : Kernel) (address : Ptr) : Kernel :=
  if .object address ∈ kernel.released then
    { kernel with stale := kernel.stale ++ [.object address] }
  else kernel

def kfree (kernel : Kernel) (address : Ptr) : Kernel :=
  if address = NULL then kernel else { kernel with released := kernel.released ++ [.object address] }

def ufree (kernel : Kernel) (page : Word) : Kernel :=
  { kernel with released := kernel.released ++ [.user page] }

def freeVirtualMap (kernel : Kernel) (topLevel : Word) : Kernel :=
  { kernel with released := kernel.released ++ [.table topLevel] }

def archDeallocPageTable (kernel : Kernel) (topLevel : Word) : Kernel :=
  let torn := freePageTables topLevel ⟨kernel.machine.memory, [], [], []⟩
  { kernel with
    machine := { kernel.machine with memory := torn.memory }
    released := kernel.released ++ torn.ufreed.map .user ++ torn.kfreed.map .table
    stale := kernel.stale ++ torn.stale.map .table }

/-- The loop of `doubly_linked_list_destroy`. -/
def destroyLoop (freeData : Bool) : ℕ → Kernel → Ptr → Option Kernel
  | 0, kernel, current => if current = NULL then some kernel else none
  | fuel + 1, kernel, current =>
      if current = NULL then some kernel
      else
        let node := kernel.nodes current
        let kernel := kernel.use current
        let kernel := if freeData then kernel.kfree node.data else kernel
        destroyLoop freeData fuel (kernel.kfree current) node.next

/-- `doubly_linked_list_destroy`, with a round for every node. -/
def destroyList (kernel : Kernel) (list : Ptr) (freeData : Bool) : Option Kernel :=
  if list = NULL then some kernel
  else do
    let header := kernel.lists list
    let kernel ← destroyLoop freeData header.nodeCount (kernel.use list) header.head
    some ((kernel.use list).kfree list)

end Kernel

/-- The part of `free_process` for a process with page tables of its own. -/
def freePageMap (kernel : Kernel) (process : Ptr) : Option Kernel := do
  let object := kernel.processes process
  let map := kernel.pageMaps object.pageMap
  let kernel := ((kernel.use process).use object.pageMap).archDeallocPageTable map.topLevel
  let kernel := ((kernel.use process).use object.pageMap).freeVirtualMap map.topLevel
  let kernel ← ((kernel.use process).use object.pageMap).destroyList map.vmRegions true
  let kernel := (kernel.use process).ufree object.stack
  let kernel := (kernel.use process).kfree object.pageMap
  some (((kernel.use process).use object.pageMap).kfree map.vmRegions)

/-- The part of `free_process` for the handles and the process itself. -/
def freeHandles (kernel : Kernel) (process : Ptr) : Option Kernel := do
  let object := kernel.processes process
  let header := kernel.handleLists object.handleList
  let kernel ← ((kernel.use process).use object.handleList).destroyList header true
  let kernel := ((kernel.use process).use object.handleList).kfree header
  let kernel := (kernel.use process).kfree object.handleList
  let kernel := (kernel.use process).kfree object.currentRegisterState
  some (kernel.kfree process)

def freeOwnPageMap (kernelTopLevel : Word) (kernel : Kernel) (process : Ptr) : Option Kernel :=
  let object := kernel.processes process
  let used := (kernel.use process).use object.pageMap
  if (kernel.pageMaps object.pageMap).topLevel ≠ kernelTopLevel then freePageMap used process
  else some used

/-- `free_process`, with a new record. -/
def freeProcess (kernelTopLevel : Word) (kernel : Kernel) (process : Ptr) : Option Kernel := do
  let start := { kernel with released := [], stale := [] }
  let kernel := (start.use process).kfree (kernel.processes process).kernelStack
  freeHandles (← freeOwnPageMap kernelTopLevel kernel process) process

/-- What was allocated for a process with these files: handles and nodes beside the rest. -/
def allocations (kernel : Kernel) (process : Ptr) (files : List (Ptr × Ptr)) : List Block :=
  let object := kernel.processes process
  let map := kernel.pageMaps object.pageMap
  [.object process, .object object.kernelStack, .object object.handleList,
    .object (kernel.handleListOf process), .object object.pageMap, .table map.topLevel,
    .object map.vmRegions, .object object.currentRegisterState, .user object.stack] ++
  (lowerTables kernel.machine.memory map.topLevel).map .table ++
  files.flatMap fun file ↦ [.object file.1, .object file.2]

/-- Each allocation is released once, nothing else is, and nothing is used after its release. -/
structure Balanced (allocated : List Block) (after : Kernel) : Prop where
  once : ∀ block ∈ allocated, after.released.count block = 1
  only : ∀ block ∈ after.released, block ∈ allocated
  unused : after.stale = []

/-- The objects are the same, and the record may be longer. -/
structure Grows (before after : Kernel) : Prop where
  processes : after.processes = before.processes
  handleLists : after.handleLists = before.handleLists
  pageMaps : after.pageMaps = before.pageMaps
  lists : after.lists = before.lists
  released : before.released <+: after.released
  stale : before.stale <+: after.stale

variable {freeData : Bool} {list process proc : Ptr} {after kernel : Kernel}

namespace Grows

variable {kernel mid after : Kernel}

theorem refl (kernel : Kernel) : Grows kernel kernel :=
  ⟨rfl, rfl, rfl, rfl, prefix_rfl, prefix_rfl⟩

section

variable (h : Grows kernel mid)
include h

theorem trans (h' : Grows mid after) : Grows kernel after :=
  ⟨h'.processes.trans h.processes, h'.handleLists.trans h.handleLists,
    h'.pageMaps.trans h.pageMaps, h'.lists.trans h.lists, h.released.trans h'.released, h.stale.trans h'.stale⟩

theorem use (addr : Ptr) : Grows kernel (mid.use addr) := by
  refine h.trans ?_
  unfold Kernel.use
  split
  · exact ⟨rfl, rfl, rfl, rfl, prefix_rfl, prefix_append _ _⟩
  · exact refl mid

theorem kfree (addr : Ptr) : Grows kernel (mid.kfree addr) := by
  refine h.trans ?_
  unfold Kernel.kfree
  split
  · exact refl mid
  · exact ⟨rfl, rfl, rfl, rfl, prefix_append _ _, prefix_rfl⟩

theorem ufree (page : Word) : Grows kernel (mid.ufree page) :=
  h.trans ⟨rfl, rfl, rfl, rfl, prefix_append _ _, prefix_rfl⟩

theorem freeVirtualMap (topLevel : Word) :
    Grows kernel (mid.freeVirtualMap topLevel) :=
  h.trans ⟨rfl, rfl, rfl, rfl, prefix_append _ _, prefix_rfl⟩

theorem archDeallocPageTable (topLevel : Word) :
    Grows kernel (mid.archDeallocPageTable topLevel) := by
  unfold Kernel.archDeallocPageTable
  generalize freePageTables topLevel ⟨mid.machine.memory, [], [], []⟩ = torn
  refine h.trans ⟨rfl, rfl, rfl, rfl, ?_, prefix_append _ _⟩
  exact (prefix_append _ _).trans (prefix_append _ _)

end

theorem destroyLoop {freeData : Bool} : ∀ {fuel : ℕ} {mid : Kernel} {cur : Ptr},
    Grows kernel mid → Kernel.destroyLoop freeData fuel mid cur = some after → Grows kernel after
  | 0, mid, cur, h, hloop => by
      rw [Kernel.destroyLoop] at hloop
      split at hloop
      · cases hloop
        exact h
      · cases hloop
  | fuel + 1, mid, cur, h, hloop => by
      rw [Kernel.destroyLoop] at hloop
      split at hloop
      · cases hloop
        exact h
      · refine destroyLoop (Grows.kfree ?_ cur) hloop
        split
        · exact (h.use cur).kfree _
        · exact h.use cur

theorem destroyList (h : Grows kernel mid)
    (hdestroy : mid.destroyList list freeData = some after) : Grows kernel after := by
  rw [Kernel.destroyList] at hdestroy
  split at hdestroy
  · cases hdestroy
    exact h
  · simp only [bind_eq_bind, bind_eq_some_iff, some.injEq] at hdestroy
    obtain ⟨looped, hloop, rfl⟩ := hdestroy
    exact (((h.use list).destroyLoop hloop).use list).kfree list

theorem freePageMap (h : Grows kernel mid)
    (hfree : Scheduling.freePageMap mid proc = some after) : Grows kernel after := by
  simp only [Scheduling.freePageMap, bind_eq_bind, bind_eq_some_iff, some.injEq] at hfree
  obtain ⟨destroyed, hdestroy, rfl⟩ := hfree
  set pageMap := (mid.processes proc).pageMap
  set topLevel := (mid.pageMaps pageMap).topLevel
  have htables := ((h.use proc).use pageMap).archDeallocPageTable topLevel
  have hbefore := ((htables.use proc).use pageMap).freeVirtualMap topLevel
  have hafter := ((hbefore.use proc).use pageMap).destroyList hdestroy
  exact ((((((hafter.use proc).ufree _).use proc).kfree _).use proc).use _).kfree _

theorem freeOwnPageMap {kernelTopLevel : Word} (h : Grows kernel mid)
    (hfree : Scheduling.freeOwnPageMap kernelTopLevel mid proc = some after) :
    Grows kernel after := by
  have hused := (h.use proc).use (mid.processes proc).pageMap
  simp only [Scheduling.freeOwnPageMap] at hfree
  split at hfree
  · exact hused.freePageMap hfree
  · cases hfree
    exact hused

end Grows

theorem count_released_le {before : Kernel} (h : Grows before after) (block : Block) :
    before.released.count block ≤ after.released.count block :=
  h.released.sublist.count_le block

theorem count_released_kfree {addr : Ptr} (haddr : addr ≠ NULL) :
    (kernel.kfree addr).released.count (.object addr) =
      kernel.released.count (.object addr) + 1 := by
  rw [Kernel.kfree, if_neg haddr]
  simp

theorem count_released_destroyList
    (hlist : list ≠ NULL) (hdestroy : kernel.destroyList list freeData = some after) :
    1 ≤ after.released.count (.object list) := by
  rw [Kernel.destroyList, if_neg hlist] at hdestroy
  simp only [bind_eq_bind, bind_eq_some_iff, some.injEq] at hdestroy
  obtain ⟨looped, -, rfl⟩ := hdestroy
  rw [count_released_kfree hlist]
  exact Nat.le_add_left _ _

theorem count_released_freeHandles (hhdr : kernel.handleListOf process ≠ NULL)
    (hfree : freeHandles kernel process = some after) :
    2 ≤ after.released.count (.object (kernel.handleListOf process)) := by
  simp only [freeHandles, bind_eq_bind, bind_eq_some_iff, some.injEq] at hfree
  obtain ⟨destroyed, hdestroy, rfl⟩ := hfree
  have honce := count_released_destroyList hhdr hdestroy
  set header := kernel.handleListOf process with hdef
  have htwice : 2 ≤ (((destroyed.use process).use (kernel.processes process).handleList).kfree
      header).released.count (.object header) := by
    rw [count_released_kfree hhdr]
    have hgrows := count_released_le (((Grows.refl destroyed).use process).use
      (kernel.processes process).handleList) (.object header)
    omega
  refine htwice.trans (count_released_le ?_ _)
  exact ((((((Grows.refl _).use process).kfree _).use process).kfree _).kfree process)

end DionysOS.Scheduling
