import DionysOS.Memory.Kmalloc
import DionysOS.Memory.PmmSafety
import DionysOS.Memory.SlabFrames

/-!
# `_kfree` and the slab that an object came from

`_kfree` finds the slab of an object in the header of its region, at the object's address rounded
down to 128 KiB. That is the start of the region if regions start at multiples of 128 KiB behind the
direct map, and nothing in the code sees to that: the physical memory manager counts blocks from the
start of a usable range, and merges any two neighbours of one order. `AlignedRoom` says that every
block of at least 32 pages is aligned, and is handed to the books of the physical memory manager as
the room that its blocks have.

The second thing that `_kfree` relies on is that the object lies between the bounds of the slab.
They are those of the region that the slab obtained last, so the objects of a slab that grows while
some are in use can not be freed any more.
-/

namespace DionysOS.Memory.Kmalloc

open DataStructures Foundation.ByteRecords List Function Option Prod
open Pmm hiding Operation step Promised
open Slab (WORD DEFAULT_SLAB_SIZE_PAGES Region Valid)

/-- `_kfree` finds the owner of every object: the header it computes is the start of the region of
the object, and it puts the object back on the list of the slab it came from, and does nothing
else. -/
def FindsOwner (hhdmOffset : ℕ) (heap : Heap) : Prop :=
  ∀ index, ∀ object ∈ heap.live index, ∃ region ∈ heap.regions index,
    region.start ≤ object ∧ object < region.start + region.size ∧
      headerAddress object = region.start ∧
      kfree hhdmOffset heap object = some (heap.giveBack index object)

/-- The static pools suffice for one call of `phys_alloc`, so it needs no memory from `_kalloc`. -/
def Supplied (pool : List Ptr) (state : State) (allocation : Allocation) : Prop :=
  Provided pool state allocation ∧ MAX_ORDER ≤ state.unusedBuddyBlocksList.length ∧
    state.lists.freeNodes.head ≠ NULL

-- The list of unused blocks is long, so only its beginning is looked at.
instance (pool : List Ptr) (state : State) (allocation : Allocation) :
    Decidable (Supplied pool state allocation) :=
  have hlength : (state.unusedBuddyBlocksList.drop (MAX_ORDER - 1)).isEmpty = false ↔
      MAX_ORDER ≤ state.unusedBuddyBlocksList.length := by
    simp only [isEmpty_eq_false_iff, ne_eq, drop_eq_nil_iff, MAX_ORDER]
    omega
  have : Decidable (MAX_ORDER ≤ state.unusedBuddyBlocksList.length) := decidable_of_iff _ hlength
  instDecidableAnd

/-- What the callers and the static pools promise: only objects and pages in use are freed. -/
def Promised (pool : List Ptr) (hhdmOffset : ℕ) (heap : Heap) : Operation → Prop
  | .create _ _ allocation => Supplied pool heap.machine.state allocation
  | .kalloc _ allocation => Supplied pool heap.machine.state allocation
  | .kfree address => (∃ index < NUM_SLABS, address ∈ heap.live index) ∨
      ∃ allocation ∈ heap.machine.outstanding, allocation.address + hhdmOffset = address ∧
        ∀ index < NUM_SLABS, ∀ region ∈ heap.regions index, region.start ≠ address

instance (pool : List Ptr) (hhdmOffset : ℕ) (heap : Heap) :
    DecidablePred (Promised pool hhdmOffset heap)
  | .create .. => inferInstanceAs (Decidable (Supplied ..))
  | .kalloc .. => inferInstanceAs (Decidable (Supplied ..))
  | .kfree _ => instDecidableOr

/-- Room inside a usable range, which starts at a multiple of the region size behind the direct map
if a region fits into it. -/
def AlignedRoom (hhdmOffset : ℕ) (entries : List MemmapEntry) (start pages : ℕ) : Prop :=
  Within entries start pages ∧
    (DEFAULT_SLAB_SIZE_PAGES ≤ pages → REGION_SIZE ∣ start + hhdmOffset)

instance (hhdmOffset : ℕ) (entries : List MemmapEntry) :
    DecidableRel (AlignedRoom hhdmOffset entries) :=
  fun _ _ ↦ instDecidableAnd

/-- The memory map and the direct map under which the regions of `heap_init` are aligned, and the
bounds of slabs do not wrap around. -/
structure AlignedMap (hhdmOffset : ℕ) (entries : List MemmapEntry) : Prop where
  page : PAGE_SIZE ∣ hhdmOffset
  room : hhdmOffset + highestAddress entries + WORD * REGION_SIZE ≤ 2 ^ 64
  aligned : ∀ entry ∈ entries.filter (·.type == .usable), REGION_SIZE ∣ entry.base + hhdmOffset

/-- The condition under which a call keeps the owners: no slab grows while its objects are in use,
runs of pages that are merged or taken as a whole are adjacent, in one range and aligned, and only
pages that the table knows are freed. -/
def KeepsOwners (hhdmOffset : ℕ) (entries : List MemmapEntry) (heap : Heap) : Operation → Prop
  | .create .. => False
  | .kalloc size _ =>
      match if size < PAGE_SIZE then heapSlabFor heap size else none with
      | some index => (heap.slabs index).firstFree ≠ NULL ∨ heap.live index = []
      | none => 2 ^ MAX_ORDER < (size + PAGE_SIZE) / PAGE_SIZE →
          LargeFits (AlignedRoom hhdmOffset entries) heap.machine.state
            ((size + PAGE_SIZE) / PAGE_SIZE) KERNEL_POOL
  | .kfree address => (∃ index < NUM_SLABS, address ∈ heap.live index) ∨
      findUsed heap.machine.state (address - hhdmOffset) ≠ some NULL ∧
        Releasable (AlignedRoom hhdmOffset entries) heap.machine.state (address - hhdmOffset)

instance (hhdmOffset : ℕ) (entries : List MemmapEntry) (heap : Heap) :
    DecidablePred (KeepsOwners hhdmOffset entries heap)
  | .create .. => instDecidableFalse
  | .kalloc size _ =>
      match hslab : if size < PAGE_SIZE then heapSlabFor heap size else none with
      | some index =>
          decidable_of_iff ((heap.slabs index).firstFree ≠ NULL ∨ heap.live index = [])
            (by simp only [KeepsOwners, hslab])
      | none =>
          decidable_of_iff (2 ^ MAX_ORDER < (size + PAGE_SIZE) / PAGE_SIZE →
            LargeFits (AlignedRoom hhdmOffset entries) heap.machine.state
              ((size + PAGE_SIZE) / PAGE_SIZE) KERNEL_POOL)
            (by simp only [KeepsOwners, hslab])
  | .kfree _ => instDecidableOr

variable {hhdmOffset : ℕ} {entries : List MemmapEntry} {pages : List (ℕ × ℕ)} {pool : List Ptr}
  {heap : Heap} {free : ℕ → List ℕ} {count index object : ℕ} {region : Region}

theorem AlignedRoom.mono {start pages pages' : ℕ}
    (hroom : AlignedRoom hhdmOffset entries start pages) (hle : pages' ≤ pages) :
    AlignedRoom hhdmOffset entries start pages' :=
  ⟨hroom.1.mono hle, fun h ↦ hroom.2 (h.trans hle)⟩

theorem halving_alignedRoom (hhdmOffset : ℕ) (entries : List MemmapEntry) :
    Halving (Fitting (AlignedRoom hhdmOffset entries)) := by
  rintro start order ⟨hwithin, haligned⟩
  obtain ⟨hlower, hupper⟩ := halving_within entries start order hwithin
  have hdouble : 2 ^ order ≤ 2 ^ (order + 1) := Nat.pow_le_pow_right (by decide) (Nat.le_succ _)
  refine ⟨⟨hlower, fun h ↦ haligned (h.trans hdouble)⟩, hupper, fun h ↦ ?_⟩
  have horder : 5 ≤ order := by
    by_contra hsmall
    have hlt : 2 ^ order < 2 ^ 5 := Nat.pow_lt_pow_right (by decide) (by omega)
    exact absurd h (Nat.not_le.mpr hlt)
  have hhalf : REGION_SIZE ∣ 2 ^ order * PAGE_SIZE :=
    Nat.mul_dvd_mul_right (pow_dvd_pow 2 horder) PAGE_SIZE
  rw [Nat.add_right_comm]
  exact Nat.dvd_add (haligned (h.trans hdouble)) hhalf

/-- The pages of a region are an outstanding allocation. -/
def Backed (hhdmOffset : ℕ) (machine : Machine) (region : Region) : Prop :=
  ∃ allocation ∈ machine.outstanding, allocation.pages = DEFAULT_SLAB_SIZE_PAGES ∧
    region = ⟨allocation.address + hhdmOffset, DEFAULT_SLAB_SIZE_PAGES⟩

theorem Backed.size {machine : Machine} {region : Region} (hbacked : Backed hhdmOffset machine region) :
    region.size = REGION_SIZE := by
  obtain ⟨_, -, -, rfl⟩ := hbacked
  rfl

def entrySizeOf (index : ℕ) : ℕ := 8 * 2 ^ index

/-- The invariant of the heap, of which the first `count` slabs have been created. -/
structure Sound (hhdmOffset : ℕ) (entries : List MemmapEntry) (pages : List (ℕ × ℕ))
    (pool : List Ptr) (heap : Heap) (free : ℕ → List ℕ) (count : ℕ) : Prop where
  books : ∃ small large lost,
    Books (AlignedRoom hhdmOffset entries) pages pool heap.machine small large lost
  created : ∀ index < count, Valid (entrySizeOf index) (heap.view index) (free index)
  others : ∀ index, count ≤ index →
    (heap.slabs index).entrySize = 0 ∧ heap.live index = [] ∧ heap.regions index = []
  backed : ∀ index, ∀ region ∈ heap.regions index, Backed hhdmOffset heap.machine region
  apart : ∀ index other, index ≠ other → ∀ region ∈ heap.regions index,
    ∀ region' ∈ heap.regions other, region.Apart region'
  header : ∀ index, ∀ region ∈ heap.regions index,
    load heap.memory WORD region.start = slabAddress index
  bounds : ∀ index < count, ∀ object ∈ free index ++ heap.live index,
    (heap.slabs index).startAddress ≤ object ∧ object ≤ (heap.slabs index).endAddress

theorem entrySizeOf_pos (index : ℕ) : 0 < entrySizeOf index :=
  Nat.mul_pos (by decide) (Nat.two_pow_pos _)

theorem WORD_dvd_entrySizeOf (index : ℕ) : WORD ∣ entrySizeOf index := dvd_mul_right ..

section

variable (hsound : Sound hhdmOffset entries pages pool heap free count)
include hsound

theorem Sound.index_lt (hobj : object ∈ heap.live index) : index < count := by
  by_contra hlarge
  simp [(hsound.others index (not_lt.mp hlarge)).2.1] at hobj

theorem Sound.object_inside
    (hidx : index < count) (hobj : object ∈ free index ++ heap.live index) :
    ∃ region ∈ heap.regions index, region.start + WORD ≤ object ∧
      object + entrySizeOf index ≤ region.start + region.size := by
  obtain ⟨region, hreg, hslot⟩ :=
    mem_flatMap.mp ((hsound.created index hidx).inPool object hobj)
  exact ⟨region, hreg, Slab.slot_inside (entrySizeOf_pos index) hslot⟩

theorem Sound.setView {view : Slab.State} {free' : List ℕ} {count' : ℕ} (hidx : index < count')
    (hcount : ∀ other, other ≠ index → (other < count' ↔ other < count))
    (hvalid : Valid (entrySizeOf index) view free')
    (hframe : ∀ pos, (∀ region ∈ view.regions, region.Avoids pos) →
      view.memory pos = heap.memory pos)
    (hbacked : ∀ region ∈ view.regions, Backed hhdmOffset heap.machine region)
    (hapart : ∀ region ∈ view.regions, ∀ other, other ≠ index →
      ∀ region' ∈ heap.regions other, region.Apart region')
    (hhdr : ∀ region ∈ view.regions, load view.memory WORD region.start = slabAddress index)
    (hbounds : ∀ object ∈ free' ++ view.live,
      view.slab.startAddress ≤ object ∧ object ≤ view.slab.endAddress) :
    Sound hhdmOffset entries pages pool (heap.setView index view)
      (update free index free') count' := by
  -- A word inside a region of another slab has kept its value.
  have hword : ∀ other, other ≠ index → ∀ region ∈ heap.regions other, ∀ address,
      region.start ≤ address → address + WORD ≤ region.start + region.size →
      load view.memory WORD address = load heap.memory WORD address := by
    intro other hother region hregion address hlow hhigh
    refine load_congr fun byte hbyte ↦ hframe _ fun own hown ↦ ?_
    have := hapart own hown other hother region hregion
    simp only [Region.Apart, Region.Avoids] at this ⊢
    omega
  refine ⟨hsound.books, fun other hother ↦ ?_, fun other hother ↦ ?_, fun other region hregion ↦ ?_,
    fun first second hne region hregion region' hregion' ↦ ?_, fun other region hregion ↦ ?_,
    fun other hother object hobject ↦ ?_⟩
  · by_cases hsame : other = index
    · subst hsame
      simpa [Heap.view] using hvalid
    · have hold := hsound.created other ((hcount other hsame).mp hother)
      simp only [Heap.view, Heap.setView, update_of_ne hsame] at hold ⊢
      refine { hold with threaded := hold.threaded.congr fun entry hentry ↦ ?_ }
      obtain ⟨region, hregion, hlow, hhigh⟩ := hsound.object_inside ((hcount other hsame).mp hother)
        (mem_append_left _ hentry)
      have hle := Slab.WORD_le (entrySizeOf_pos other) (WORD_dvd_entrySizeOf other)
      exact hword other hsame region hregion entry (by omega) (by omega)
  · have hsame : other ≠ index := by omega
    simp only [Heap.setView, update_of_ne hsame]
    exact hsound.others other (by have := hcount other hsame; omega)
  · by_cases hsame : other = index
    · subst hsame
      exact hbacked region (by simpa using hregion)
    · exact hsound.backed other region (by simpa [hsame] using hregion)
  · by_cases hfirst : first = index
    · subst hfirst
      exact hapart region (by simpa using hregion) second hne.symm region'
        (by simpa [hne.symm] using hregion')
    · by_cases hsecond : second = index
      · subst hsecond
        exact Or.symm (hapart region' (by simpa using hregion') first hfirst region
          (by simpa [hfirst] using hregion))
      · exact hsound.apart first second hne region (by simpa [hfirst] using hregion) region'
          (by simpa [hsecond] using hregion')
  · by_cases hsame : other = index
    · subst hsame
      exact hhdr region (by simpa using hregion)
    · have hregion : region ∈ heap.regions other := by simpa [hsame] using hregion
      have hroom : WORD ≤ region.size := by
        rw [(hsound.backed other region hregion).size]
        decide
      simp only [Heap.setView]
      rw [hword other hsame region hregion region.start le_rfl (by omega)]
      exact hsound.header other region hregion
  · by_cases hsame : other = index
    · subst hsame
      simpa using hbounds object (by simpa using hobject)
    · simp only [Heap.setView, update_of_ne hsame] at hobject ⊢
      exact hsound.bounds other ((hcount other hsame).mp hother) object hobject

theorem Sound.setMachine {machine : Machine} (hbooks : ∃ small large lost,
      Books (AlignedRoom hhdmOffset entries) pages pool machine small large lost)
    (hbacked : ∀ index, ∀ region ∈ heap.regions index, Backed hhdmOffset machine region) :
    Sound hhdmOffset entries pages pool (heap.setMachine machine) free count :=
  { hsound with books := hbooks, backed := hbacked }

theorem Sound.touch (hidx : index < count) (hobject : object ∈ free index ++ heap.live index)
    {mem : Bytes}
    (hmemory : ∀ pos, pos < object ∨ object + entrySizeOf index ≤ pos →
      mem pos = heap.memory pos) {slab : Slab.Slab} {live free' : List ℕ}
    (hvalid : Valid (entrySizeOf index) ⟨mem, slab, live, heap.regions index⟩ free')
    (hstart : slab.startAddress = (heap.slabs index).startAddress)
    (hend : slab.endAddress = (heap.slabs index).endAddress)
    (hsubset : free' ++ live ⊆ free index ++ heap.live index) :
    Sound hhdmOffset entries pages pool
      (heap.setView index ⟨mem, slab, live, heap.regions index⟩)
      (update free index free') count := by
  obtain ⟨own, hown, hlow, hhigh⟩ := hsound.object_inside hidx hobject
  refine hsound.setView hidx (fun _ _ ↦ Iff.rfl) hvalid (fun pos havoids ↦ ?_)
    (hsound.backed index) (fun region hregion other hother ↦ ?_) (fun region hregion ↦ ?_)
    (fun entry hentry ↦ ?_)
  · have houtside := havoids own hown
    simp only [Region.Avoids] at houtside
    exact hmemory pos (by omega)
  · exact hsound.apart index other hother.symm region hregion
  · have hapart := (hsound.created index hidx).header_apart (entrySizeOf_pos index) hobject hregion
    rw [← hsound.header index region hregion]
    exact load_congr fun byte hbyte ↦ hmemory _ (by omega)
  · rw [hstart, hend]
    exact hsound.bounds index hidx entry (hsubset hentry)

theorem Sound.allocate (hidx : index < count) (hfree : (heap.slabs index).firstFree ≠ NULL)
    {alloc : Allocation} {heap' : Heap} {addr : ℕ}
    (halloc : allocateObject hhdmOffset heap index alloc = some (heap', addr)) :
    ∃ free', Sound hhdmOffset entries pages pool heap' free' count := by
  have hvalid := hsound.created index hidx
  obtain ⟨rest, hrest, hstep⟩ := Slab.step_allocate_of_free hvalid hfree (slabAddress index) NULL
  simp only [allocateObject, grow, if_neg hfree, bind_eq_bind, bind_some, hstep,
    Option.some.injEq] at halloc
  obtain ⟨rfl, -⟩ := mk.inj halloc
  rw [hrest] at hvalid
  have hpopped := hvalid.pop (entrySizeOf_pos index) (WORD_dvd_entrySizeOf index)
  refine ⟨_, hsound.touch hidx (mem_append_left _ (hrest ▸ mem_cons_self))
    (fun pos houtside ↦ ?_) hpopped rfl rfl ?_⟩
  · rw [show (heap.view index).slab.entrySize = entrySizeOf index from hvalid.size]
    exact if_neg (by omega)
  · rw [hrest]
    exact perm_middle.subset

theorem Sound.giveBack (hidx : index < count) (hobj : object ∈ heap.live index) :
    ∃ free', Sound hhdmOffset entries pages pool (heap.giveBack index object) free' count := by
  have hpushed := (hsound.created index hidx).push (entrySizeOf_pos index)
    (WORD_dvd_entrySizeOf index) hobj
  have hle := Slab.WORD_le (entrySizeOf_pos index) (WORD_dvd_entrySizeOf index)
  refine ⟨_, hsound.touch hidx (mem_append_right _ hobj) (fun pos houtside ↦ ?_)
    hpushed rfl rfl ?_⟩
  · exact store_of_outside _ (by omega)
  · refine cons_subset.mpr ⟨mem_append_right _ hobj, ?_⟩
    exact (Sublist.append_left (erase_sublist ..) _).subset

end

theorem Sound.allocatePages (hnodup : (pages.map snd).Nodup)
    (hsound : Sound hhdmOffset entries pages pool heap free count) {req : ℕ}
    {alloc : Allocation} (hprovided : Provided pool heap.machine.state alloc)
    (hlarge : 2 ^ MAX_ORDER < req → LargeFits (AlignedRoom hhdmOffset entries)
      heap.machine.state req KERNEL_POOL) {heap' : Heap} {addr : ℕ}
    (halloc : Kmalloc.allocatePages hhdmOffset heap req alloc = some (heap', addr)) :
    Sound hhdmOffset entries pages pool heap' free count ∧ ∃ machine physical,
      heap' = heap.setMachine machine ∧ addr = physical + hhdmOffset ∧
        machine.outstanding = ⟨physical, req, KERNEL_POOL⟩ :: heap.machine.outstanding := by
  obtain ⟨⟨machine, physical⟩, hstep, hres⟩ := map_eq_some_iff.mp halloc
  obtain ⟨rfl, rfl⟩ := mk.inj hres
  obtain ⟨small, large, lost, hbooks⟩ := hsound.books
  have hafter := hbooks.step (halving_alignedRoom hhdmOffset entries) hnodup
    (show Pmm.Promised pool heap.machine (.alloc req KERNEL_POOL alloc) from
      ⟨by decide, hprovided⟩) hlarge hstep
  obtain ⟨⟨state, start⟩, -, hmachine⟩ := bind_eq_some_iff.mp hstep
  cases hmachine
  refine ⟨hsound.setMachine hafter fun index region hreg ↦ ?_, _, _, rfl, rfl, rfl⟩
  obtain ⟨alloc, hmem, hrest⟩ := hsound.backed index region hreg
  exact ⟨alloc, mem_cons_of_mem _ hmem, hrest⟩

theorem Sound.backed_room (hmap : AlignedMap hhdmOffset entries)
    (hsound : Sound hhdmOffset entries pages pool heap free count)
    (hbacked : Backed hhdmOffset heap.machine region) :
    hhdmOffset ≤ region.start ∧ REGION_SIZE ∣ region.start ∧
      region.start + WORD * REGION_SIZE < 2 ^ 64 := by
  obtain ⟨small, large, lost, hbooks⟩ := hsound.books
  obtain ⟨alloc, hmem, hpages, rfl⟩ := hbacked
  obtain ⟨⟨entry, hentry, -, hhigh⟩, haligned⟩ := hbooks.room (fun h ↦ h.mono) hmem
  refine ⟨Nat.le_add_left .., haligned hpages.ge, ?_⟩
  have hhighest := le_highestAddress hentry
  have hroom := hmap.room
  rw [hpages] at hhigh
  have hpos : 0 < DEFAULT_SLAB_SIZE_PAGES * PAGE_SIZE := by decide
  simp only
  omega

theorem apart_of_separate {one other : Outstanding} (hone : one.pages = DEFAULT_SLAB_SIZE_PAGES)
    (hother : other.pages = DEFAULT_SLAB_SIZE_PAGES) (hseparate : Separate one other) :
    Region.Apart ⟨one.address + hhdmOffset, DEFAULT_SLAB_SIZE_PAGES⟩
      ⟨other.address + hhdmOffset, DEFAULT_SLAB_SIZE_PAGES⟩ := by
  have hcommon := hseparate (max one.address other.address)
  simp only [Outstanding.Covers, hone, hother, Region.Apart, Region.size] at hcommon ⊢
  omega

theorem Sound.newRegion_apart (hnodup : (pages.map snd).Nodup)
    (hsound : Sound hhdmOffset entries pages pool heap free count) {physical : ℕ}
    {earlier : List Outstanding} (houtstanding : heap.machine.outstanding =
      ⟨physical, DEFAULT_SLAB_SIZE_PAGES, KERNEL_POOL⟩ :: earlier) {machine : Machine}
    (hmachine : machine.outstanding = earlier) (hbacked : Backed hhdmOffset machine region) :
    Region.Apart ⟨physical + hhdmOffset, DEFAULT_SLAB_SIZE_PAGES⟩ region := by
  obtain ⟨small, large, lost, hbooks⟩ := hsound.books
  obtain ⟨alloc, hmem, hpages, rfl⟩ := hbacked
  have hseparate := hbooks.separate hnodup
  rw [houtstanding] at hseparate
  rw [hmachine] at hmem
  exact @apart_of_separate hhdmOffset ⟨physical, DEFAULT_SLAB_SIZE_PAGES, KERNEL_POOL⟩ alloc
    rfl hpages ((pairwise_cons.mp hseparate).1 alloc hmem)

theorem Sound.create (hmap : AlignedMap hhdmOffset entries) (hnodup : (pages.map snd).Nodup)
    (hsound : Sound hhdmOffset entries pages pool heap free count) {alloc : Allocation}
    (hprovided : Provided pool heap.machine.state alloc) {count' : ℕ} (hidx : index < count')
    (hcount : ∀ other, other ≠ index → (other < count' ↔ other < count))
    (hslabs : index < NUM_SLABS) (hlive : heap.live index = []) {slab : Slab.Slab}
    (hbase : Valid (entrySizeOf index) ⟨heap.memory, slab, [], heap.regions index⟩ [])
    {heap' : Heap}
    (hcreate : heapCreate hhdmOffset heap index (entrySizeOf index) alloc = some heap') :
    (∃ free', Sound hhdmOffset entries pages pool heap' free' count') ∧
      (heap'.slabs index).firstFree ≠ NULL := by
  obtain ⟨⟨paged, addr⟩, halloc, hcreate⟩ := bind_eq_some_iff.mp hcreate
  obtain ⟨⟨mem, slab'⟩, hslab, hres⟩ := bind_eq_some_iff.mp hcreate
  cases hres
  obtain ⟨hpaged, machine, physical, rfl, rfl, houtstanding⟩ :=
    hsound.allocatePages hnodup hprovided (fun h ↦ absurd h (by decide)) halloc
  have hpos := entrySizeOf_pos index
  have hmul := WORD_dvd_entrySizeOf index
  let new : Region := ⟨physical + hhdmOffset, DEFAULT_SLAB_SIZE_PAGES⟩
  have hnew : Backed hhdmOffset machine new :=
    ⟨_, houtstanding ▸ mem_cons_self, rfl, rfl⟩
  have hbacked : ∀ region ∈ new :: heap.regions index, Backed hhdmOffset machine region := by
    intro region hregion
    rcases mem_cons.mp hregion with rfl | hregion
    · exact hnew
    · exact hpaged.backed index region hregion
  have hapart : ∀ other, ∀ region ∈ heap.regions other, new.Apart region := fun other region hregion ↦
    hpaged.newRegion_apart hnodup houtstanding rfl (hsound.backed other region hregion)
  obtain ⟨-, -, hroom⟩ := hpaged.backed_room hmap hnew
  have hself : slabAddress index < 2 ^ 64 := by
    simp only [slabAddress, NUM_SLABS] at hslabs ⊢
    omega
  have hcreated := Slab.heapCreateSlab_created hmul hself hslab
  have hfits : physical + hhdmOffset + DEFAULT_SLAB_SIZE_PAGES * PAGE_SIZE ≤ 2 ^ 64 := by
    simp only [new, REGION_SIZE, WORD] at hroom
    omega
  have hvalid := hbase.grow hpos hmul hfits (hapart index) hslab
  have hbounds : ∀ entry ∈ Slab.slots (entrySizeOf index) new,
      slab'.startAddress ≤ entry ∧ entry ≤ slab'.endAddress := by
    intro entry hentry
    have hinside := Slab.slot_inside hpos hentry
    have hend : slab'.endAddress = physical + hhdmOffset + WORD * REGION_SIZE :=
      hcreated.endAddress.trans (Nat.mod_eq_of_lt hroom)
    rw [hcreated.startAddress, hend]
    simp only [new, Region.size, REGION_SIZE, WORD] at hinside ⊢
    omega
  refine ⟨⟨_, hpaged.setView hidx hcount (hlive.symm ▸ hvalid) (fun pos havoids ↦ ?_) hbacked
    (fun region hregion other hother ↦ ?_) (fun region hregion ↦ ?_) ?_⟩, ?_⟩
  · exact hcreated.frame pos (havoids new mem_cons_self)
  · rcases mem_cons.mp hregion with rfl | hregion
    · exact hapart other
    · exact hsound.apart index other hother.symm region hregion
  · rcases mem_cons.mp hregion with rfl | hregion
    · exact hcreated.header
    · have hold := hapart index region hregion
      have hsize := (hbase.rooms region hregion).1
      rw [← hsound.header index region hregion]
      refine load_congr fun byte hbyte ↦ hcreated.frame _ ?_
      simp only [Region.Avoids, Region.Apart, new] at hold ⊢
      omega
  · simpa [hlive] using hbounds
  · have hfirst := mt (hvalid.firstFree_eq_null_iff hpos).mp (Slab.slots_ne_nil hslab)
    simpa using hfirst

end DionysOS.Memory.Kmalloc
