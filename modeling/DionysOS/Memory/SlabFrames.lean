import DionysOS.Memory.SlabObjects

/-!
# What the calls on a slab change

A call on a slab writes to the object it hands out or takes back, and to a region that it has just
obtained; the header word of the new region names the slab. So several slabs can share one memory:
a call on one of them changes nothing in the regions of another, and no header word of its own older
regions.
-/

namespace DionysOS.Memory.Slab

open DataStructures Foundation.ByteRecords Option
open Pmm (PAGE_SIZE)

variable {entrySize pages self start pos object addr : ℕ} {mem mem' : Bytes}
  {slab : Slab} {state : State} {free : List ℕ} {region : Region}

def Region.Avoids (region : Region) (position : ℕ) : Prop :=
  position < region.start ∨ region.start + region.size ≤ position

/-- What `heap_create_slab` leaves besides the free list. -/
structure Created (owner start pages : ℕ) (memory memory' : Bytes) (slab : Slab) : Prop where
  frame : ∀ position, Region.Avoids ⟨start, pages⟩ position → memory' position = memory position
  header : load memory' WORD start = owner
  startAddress : slab.startAddress = start
  endAddress : slab.endAddress = (start + WORD * (pages * PAGE_SIZE)) % 2 ^ 64

theorem heapCreateSlab_created (hmul : WORD ∣ entrySize) (hself : self < 2 ^ 64)
    (hcreate : heapCreateSlab self entrySize pages start mem = some (mem', slab)) :
    Created self start pages mem mem' slab := by
  have hroom := (heapCreateSlab_isSome start).mp (isSome_of_eq_some hcreate)
  simp only [heapCreateSlab, if_neg (show ¬ (entrySize = 0 ∨ entryCount entrySize pages = 0) by
    omega)] at hcreate
  cases hcreate
  obtain ⟨hpos, hcount⟩ := hroom
  have hword := WORD_le hpos hmul
  have hhdr := le_headerOffset hpos
  have hfactor : 0 < entrySize / WORD := Nat.div_pos hword (by decide)
  -- The last entry, with the word that ends the list, lies inside the region.
  have hslot : start + headerOffset entrySize + (entryCount entrySize pages - 1) * entrySize ∈
      slots entrySize ⟨start, pages⟩ :=
    List.mem_map.mpr ⟨_, List.mem_range.mpr (show _ < entryCount entrySize pages by omega), rfl⟩
  have hin : arrayCell (start + headerOffset entrySize) (entrySize / WORD)
      (entryCount entrySize pages - 1) + entrySize ≤ start + Region.size ⟨start, pages⟩ := by
    rw [arrayCell_eq hmul]
    exact (slot_inside hpos hslot).2
  have hfirst : arrayCell (start + headerOffset entrySize) (entrySize / WORD) 0 =
      start + headerOffset entrySize := by
    simp [arrayCell]
  have hlast := arrayCell_add (start + headerOffset entrySize) (entrySize / WORD) 0
    (entryCount entrySize pages - 1)
  rw [zero_add] at hlast
  refine ⟨fun pos havoids ↦ ?_, ?_, rfl, rfl⟩
  · simp only [Region.Avoids] at havoids
    rw [store_of_outside _ (by omega),
      linkEntries_outside _ hfactor _ _ _ (by rw [zero_add]; omega),
      store_of_outside _ (by omega)]
  · rw [load_store_of_apart _ (.inr (by omega)), load_congr fun idx hidx ↦
      linkEntries_outside _ hfactor _ _ _ (by omega)]
    exact load_store_word hself _ _

theorem step_allocate_of_free (hvalid : Valid entrySize state free)
    (hfree : state.slab.firstFree ≠ NULL) (self start : ℕ) :
    ∃ rest, free = state.slab.firstFree :: rest ∧
      step self state (.allocate start) =
        some (⟨zero state.memory state.slab.firstFree state.slab.entrySize,
          { state.slab with firstFree := load state.memory WORD state.slab.firstFree },
          state.slab.firstFree :: state.live, state.regions⟩, state.slab.firstFree) := by
  cases free with
  | nil => exact absurd hvalid.threaded hfree
  | cons object rest =>
    obtain rfl : state.slab.firstFree = object := hvalid.threaded.head_eq
    refine ⟨rest, rfl, ?_⟩
    simp [step, heapAllocateFromSlab, refill, hfree, State.regionsAfter]

theorem step_allocate_of_empty {next : State} (hempty : state.slab.firstFree = NULL)
    (hstep : step self state (.allocate start) = some (next, addr)) :
    ∃ mem' slab, heapCreateSlab self state.slab.entrySize DEFAULT_SLAB_SIZE_PAGES start
        state.memory = some (mem', slab) ∧ addr = slab.firstFree ∧
      next = ⟨zero mem' slab.firstFree slab.entrySize,
        { slab with firstFree := load mem' WORD slab.firstFree },
        slab.firstFree :: state.live, ⟨start, DEFAULT_SLAB_SIZE_PAGES⟩ :: state.regions⟩ := by
  simp only [step, heapAllocateFromSlab, refill, if_pos hempty, State.regionsAfter,
    map_eq_some_iff, bind_eq_bind, bind_eq_some_iff, some.injEq]
    at hstep
  obtain ⟨_, ⟨⟨mem', slab⟩, hcreate, rfl⟩, hnext⟩ := hstep
  obtain ⟨rfl, rfl⟩ := Prod.mk.inj hnext
  exact ⟨mem', slab, hcreate, rfl, rfl⟩

theorem step_free_of_bounds (hne : addr ≠ NULL)
    (hbounds : state.slab.startAddress ≤ addr ∧ addr ≤ state.slab.endAddress) (self : ℕ) :
    step self state (.free addr) =
      some (⟨store state.memory WORD addr state.slab.firstFree,
        { state.slab with firstFree := addr }, state.live.erase addr, state.regions⟩,
        NULL) := by
  simp [step, heapFreeInSlab, hne, not_lt.mpr hbounds.1, not_lt.mpr hbounds.2]

end DionysOS.Memory.Slab
