import DionysOS.Foundation.ByteRecords
import DionysOS.Memory.Pmm

/-!
# Slabs

The object caches of `slab.c`, over a byte memory. A slab cuts a region of pages into entries of
one size behind a header word, and threads its free list through the first eight bytes of the free
entries. When the list is empty it takes another region and forgets the bounds of the old one.

The address that `phys_alloc` returns, mapped by `Phys2Virt`, is an argument of the calls that
allocate. A division by zero, and a loop over the entries of a region that has room for none (its
bound wraps around, and it writes through the whole address space), are `none`.
-/

namespace DionysOS.Memory.Slab

open DataStructures Foundation.ByteRecords
open Pmm (PAGE_SIZE)

def DEFAULT_SLAB_SIZE_PAGES : ℕ := 32

/-- `sizeof(void *)`, which is also `sizeof(struct header)`. -/
def WORD : ℕ := 8

structure Slab where
  firstFree : ℕ
  entrySize : ℕ
  startAddress : ℕ
  endAddress : ℕ
deriving DecidableEq, Repr

/-- The local `header_offset` of `heap_create_slab`. -/
def headerOffset (entrySize : ℕ) : ℕ := (WORD + entrySize) / entrySize * entrySize

/-- How many entries `heap_create_slab` makes in `pages` pages. -/
def entryCount (entrySize pages : ℕ) : ℕ :=
  (pages * PAGE_SIZE - headerOffset entrySize) / entrySize

/-- The address of `array[index * factor]`, for the `void **array` of `heap_create_slab`. -/
def arrayCell (array factor index : ℕ) : ℕ := array + WORD * (index * factor)

/-- The loop of `heap_create_slab` from `index` on, with `count` rounds to go. -/
def linkEntries (array factor : ℕ) : ℕ → ℕ → Bytes → Bytes
  | 0, _, memory => memory
  | count + 1, index, memory =>
      linkEntries array factor count (index + 1)
        (store memory WORD (arrayCell array factor index) (arrayCell array factor (index + 1)))

/-- `heap_create_slab` for the `struct slab` at `self`, with a region at `region`. The end address
is computed by arithmetic on a `void **`, so it lies eight times as far as the region reaches. -/
def heapCreateSlab (self entrySize pages region : ℕ) (memory : Bytes) :
    Option (Bytes × Slab) :=
  if entrySize = 0 ∨ entryCount entrySize pages = 0 then none
  else
    let array := region + headerOffset entrySize
    let factor := entrySize / WORD
    let max := entryCount entrySize pages - 1
    let memory := store memory WORD region self
    let memory := linkEntries array factor max 0 memory
    let memory := store memory WORD (arrayCell array factor max) NULL
    some (memory, ⟨array, entrySize, region, (region + WORD * (pages * PAGE_SIZE)) % 2 ^ 64⟩)

/-- The growth at the start of `heap_allocate_from_slab`. -/
def refill (self : ℕ) (slab : Slab) (region : ℕ) (memory : Bytes) : Option (Bytes × Slab) :=
  if slab.firstFree = NULL then
    heapCreateSlab self slab.entrySize DEFAULT_SLAB_SIZE_PAGES region memory
  else some (memory, slab)

/-- `heap_allocate_from_slab`, with the address it returns. -/
def heapAllocateFromSlab (self : ℕ) (slab : Slab) (region : ℕ) (memory : Bytes) :
    Option ((Bytes × Slab) × ℕ) := do
  let (memory, slab) ← refill self slab region memory
  let oldFree := slab.firstFree
  some ((zero memory oldFree slab.entrySize,
    { slab with firstFree := load memory WORD oldFree }), oldFree)

/-- `heap_free_in_slab` for a slab that is not `NULL`. -/
def heapFreeInSlab (slab : Slab) (address : ℕ) (memory : Bytes) : Bytes × Slab :=
  if address = NULL then (memory, slab)
  else if slab.endAddress < address ∨ address < slab.startAddress then (memory, slab)
  else (store memory WORD address slab.firstFree, { slab with firstFree := address })

/-- Pages obtained from `phys_alloc`. -/
structure Region where
  start : ℕ
  pages : ℕ
deriving DecidableEq, Repr

def Region.size (region : Region) : ℕ := region.pages * PAGE_SIZE

def Region.Apart (region other : Region) : Prop :=
  region.start + region.size ≤ other.start ∨ other.start + other.size ≤ region.start

instance (region other : Region) : Decidable (region.Apart other) :=
  instDecidableOr

/-- The memory and the slab, with the objects that are handed out and the regions obtained. -/
structure State where
  memory : Bytes
  slab : Slab
  live : List ℕ
  regions : List Region

inductive Operation where
  /-- `heap_allocate_from_slab`; `region` is what `phys_alloc` returns if the slab grows. -/
  | allocate (region : ℕ)
  /-- `heap_free_in_slab`. -/
  | free (address : ℕ)
  /-- The clients write `bytes` to their objects. -/
  | write (bytes : Bytes)

/-- The byte at `position` belongs to an object that is handed out. -/
def State.InLive (state : State) (position : ℕ) : Prop :=
  ∃ object ∈ state.live, object ≤ position ∧ position < object + state.slab.entrySize

instance (state : State) (position : ℕ) : Decidable (state.InLive position) :=
  inferInstanceAs (Decidable (∃ _ ∈ _, _))

def State.regionsAfter (state : State) (region : ℕ) : List Region :=
  if state.slab.firstFree = NULL then ⟨region, DEFAULT_SLAB_SIZE_PAGES⟩ :: state.regions
  else state.regions

/-- One operation on the slab at `self`, with the address that it returns. -/
def step (self : ℕ) (state : State) : Operation → Option (State × ℕ)
  | .allocate region =>
      (heapAllocateFromSlab self state.slab region state.memory).map fun ((memory, slab), address) ↦
        (⟨memory, slab, address :: state.live, state.regionsAfter region⟩, address)
  | .free address =>
      let (memory, slab) := heapFreeInSlab state.slab address state.memory
      some (⟨memory, slab, state.live.erase address, state.regions⟩, NULL)
  | .write bytes =>
      some ({ state with
        memory := fun position ↦
          if state.InLive position then bytes position else state.memory position }, NULL)

end DionysOS.Memory.Slab
