import DionysOS.Memory.PmmBooks
import DionysOS.Memory.Slab

/-!
# The kernel heap

`_kalloc` and `_kfree` of `kmalloc.c` over the physical memory manager and the slabs. Requests below
a page go to the first slab with large enough entries, the others to `phys_alloc`. `_kfree` tells the
two apart by the address: unless it is page-aligned, it belongs to a slab, and the slab is found in
the header word at the address rounded down to the size of a region. A page-aligned address is
looked up among the used blocks first.

The kernel sees physical memory through the direct map, which starts at `hhdm_offset` and does not
wrap around. The calls of `phys_alloc` take what `_kalloc` would return for a descriptor or a list
node as an argument; it is only used when the static pools are exhausted. A header word that is no
slab's address makes `_kfree` write through a wild pointer, which is `none`.
-/

namespace DionysOS.Memory.Kmalloc

open DataStructures Foundation.ByteRecords Function
open Pmm (PAGE_SIZE KERNEL_POOL Allocation)
open Slab (WORD DEFAULT_SLAB_SIZE_PAGES Region)

/-- `NUM_SLABS`, the number of elements of `slabs`. -/
def NUM_SLABS : ℕ := 10

def REGION_SIZE : ℕ := DEFAULT_SLAB_SIZE_PAGES * PAGE_SIZE

/-- `&slabs[index]`. -/
def slabAddress (index : ℕ) : ℕ := index + 1

/-- The element of `slabs` with an address. -/
def slabAt (address : ℕ) : Option ℕ :=
  if 0 < address ∧ address ≤ NUM_SLABS then some (address - 1) else none

/-- The physical memory manager, the memory behind the direct map and the array `slabs`, with the
objects that each slab has handed out and the regions that it has obtained. -/
structure Heap where
  machine : Pmm.Machine
  memory : Bytes
  slabs : ℕ → Slab.Slab
  live : ℕ → List ℕ
  regions : ℕ → List Region

@[simps -fullyApplied]
def Heap.view (heap : Heap) (index : ℕ) : Slab.State :=
  ⟨heap.memory, heap.slabs index, heap.live index, heap.regions index⟩

@[simps -fullyApplied]
def Heap.setView (heap : Heap) (index : ℕ) (view : Slab.State) : Heap :=
  ⟨heap.machine, view.memory, update heap.slabs index view.slab,
    update heap.live index view.live, update heap.regions index view.regions⟩

/-- The heap after a call of the physical memory manager. -/
@[simps -fullyApplied]
def Heap.setMachine (heap : Heap) (machine : Pmm.Machine) : Heap := { heap with machine := machine }

/-- `Phys2Virt(phys_alloc(pages, KERNEL_POOL))`. -/
def allocatePages (hhdmOffset : ℕ) (heap : Heap) (pages : ℕ) (allocation : Allocation) :
    Option (Heap × ℕ) :=
  (Pmm.step heap.machine (.alloc pages KERNEL_POOL allocation)).map fun (machine, address) ↦
    (heap.setMachine machine, address + hhdmOffset)

/-- `heap_create_slab(&slabs[index], entry_size, DEFAULT_SLAB_SIZE_PAGES)`. -/
def heapCreate (hhdmOffset : ℕ) (heap : Heap) (index entrySize : ℕ) (allocation : Allocation) :
    Option Heap := do
  let (heap, region) ← allocatePages hhdmOffset heap DEFAULT_SLAB_SIZE_PAGES allocation
  let (memory, slab) ← Slab.heapCreateSlab (slabAddress index) entrySize DEFAULT_SLAB_SIZE_PAGES
    region heap.memory
  some (heap.setView index ⟨memory, slab, heap.live index,
    ⟨region, DEFAULT_SLAB_SIZE_PAGES⟩ :: heap.regions index⟩)

def heapSlabFor (heap : Heap) (size : ℕ) : Option ℕ :=
  (List.range NUM_SLABS).find? fun index ↦ size ≤ (heap.slabs index).entrySize

def grow (hhdmOffset : ℕ) (heap : Heap) (index : ℕ) (allocation : Allocation) :
    Option (Heap × ℕ) :=
  if (heap.slabs index).firstFree = NULL then
    allocatePages hhdmOffset heap DEFAULT_SLAB_SIZE_PAGES allocation
  else some (heap, NULL)

/-- `heap_allocate_from_slab(&slabs[index])`. -/
def allocateObject (hhdmOffset : ℕ) (heap : Heap) (index : ℕ) (allocation : Allocation) :
    Option (Heap × ℕ) := do
  let (heap, region) ← grow hhdmOffset heap index allocation
  let (view, address) ← Slab.step (slabAddress index) (heap.view index) (.allocate region)
  some (heap.setView index view, address)

def kalloc (hhdmOffset : ℕ) (heap : Heap) (size : ℕ) (allocation : Allocation) :
    Option (Heap × ℕ) :=
  match if size < PAGE_SIZE then heapSlabFor heap size else none with
  | some index => allocateObject hhdmOffset heap index allocation
  | none => allocatePages hhdmOffset heap ((size + PAGE_SIZE) / PAGE_SIZE) allocation

/-- `address & ~((DEFAULT_SLAB_SIZE_PAGES * PAGE_SIZE) - 1)`. -/
def headerAddress (address : ℕ) : ℕ := address / REGION_SIZE * REGION_SIZE

/-- `heap_free_in_slab(slab_header->slab, address)`, from either of the two places that look for the
header. -/
def freeObject (heap : Heap) (address : ℕ) : Option Heap :=
  let slab := load heap.memory WORD (headerAddress address)
  if slab = NULL then some heap
  else do
    let index ← slabAt slab
    let (view, _) ← Slab.step slab (heap.view index) (.free address)
    some (heap.setView index view)

def kfree (hhdmOffset : ℕ) (heap : Heap) (address : ℕ) : Option Heap :=
  if address = NULL then some heap
  else if address % PAGE_SIZE ≠ 0 then freeObject heap address
  else do
    let block ← Pmm.findUsed heap.machine.state (address - hhdmOffset)
    if block = NULL then freeObject heap address
    else
      let (machine, _) ← Pmm.step heap.machine (.dealloc (address - hhdmOffset))
      some (heap.setMachine machine)

inductive Operation where
  | create (index entrySize : ℕ) (allocation : Allocation)
  | kalloc (size : ℕ) (allocation : Allocation)
  | kfree (address : ℕ)
deriving DecidableEq, Repr

/-- The calls that `heap_init` makes, from `index` on. -/
def heapInitCalls (allocations : ℕ → Allocation) : ℕ → ℕ → ℕ → List Operation
  | 0, _, _ => []
  | count + 1, index, size =>
      .create index size (allocations index) ::
        if PAGE_SIZE ≤ 2 * size then [] else heapInitCalls allocations count (index + 1) (2 * size)

def heapInit (allocations : ℕ → Allocation) : List Operation :=
  heapInitCalls allocations NUM_SLABS 0 8

def step (hhdmOffset : ℕ) (heap : Heap) : Operation → Option (Heap × ℕ)
  | .create index entrySize allocation =>
      (heapCreate hhdmOffset heap index entrySize allocation).map (·, NULL)
  | .kalloc size allocation => kalloc hhdmOffset heap size allocation
  | .kfree address => (kfree hhdmOffset heap address).map (·, NULL)

/-- The heap before `heap_init`: the slabs are zero-initialised. -/
def booted (state : Pmm.State) (memory : Bytes) : Heap :=
  ⟨⟨state, []⟩, memory, fun _ ↦ ⟨NULL, 0, NULL, NULL⟩, fun _ ↦ [], fun _ ↦ []⟩

/-- The heap with an object put back at the head of its slab's free list. -/
def Heap.giveBack (heap : Heap) (index address : ℕ) : Heap :=
  heap.setView index ⟨store heap.memory WORD address (heap.slabs index).firstFree,
    { heap.slabs index with firstFree := address }, (heap.live index).erase address,
    heap.regions index⟩

end DionysOS.Memory.Kmalloc
