import DionysOS.Memory.PmmAllocation

/-!
# Initialisation of the physical memory manager

`phys_init` collects the usable ranges of the memory map, sorts them by size, cuts each into blocks
of the maximal order, and files every block in the tree of one of two zones. What does not fill a
block becomes spare pages.

`physInit_spec` says that the accounts hold afterwards: every block is filed, and the pages of the
blocks are pages of the usable ranges, each counted once.
-/

namespace DionysOS.Memory.Pmm

open DataStructures List Function
open DataStructures.HashTable
open DataStructures.SinglyLinkedList (NodeStore)
open Foundation.BubbleSort
open Foundation.PartialMachine (Yields)

/-- The types of memory map entries that `phys_init` tells apart. -/
inductive MemmapType where
  | usable
  | kernelAndModules
  | other
deriving DecidableEq, Repr

structure MemmapEntry where
  base : ℕ
  length : ℕ
  type : MemmapType
deriving DecidableEq, Repr

structure PageRange where
  startAddress : ℕ
  pages : ℕ
deriving DecidableEq, Repr

def collectRanges (entries : List MemmapEntry) : List PageRange :=
  (entries.filter (·.type == .usable)).map fun entry ↦ ⟨entry.base, entry.length / PAGE_SIZE⟩

/-- `highest_address` after the loop over the memory map. -/
def highestAddress (entries : List MemmapEntry) : ℕ :=
  (entries.filter (·.type == .usable)).foldl
    (fun highest entry ↦ max highest (entry.base + entry.length)) 0

theorem le_foldl_max (usable : List MemmapEntry) : ∀ (highest : ℕ),
    highest ≤ usable.foldl (fun highest entry ↦ max highest (entry.base + entry.length)) highest ∧
      ∀ entry ∈ usable, entry.base + entry.length ≤
        usable.foldl (fun highest entry ↦ max highest (entry.base + entry.length)) highest := by
  induction usable with
  | nil => exact fun highest ↦ ⟨le_rfl, by simp⟩
  | cons first usable ih =>
    intro highest
    obtain ⟨hle, hends⟩ := ih (max highest (first.base + first.length))
    refine ⟨(le_max_left ..).trans hle, fun entry hentry ↦ ?_⟩
    rcases mem_cons.mp hentry with rfl | hentry
    · exact (le_max_right ..).trans hle
    · exact hends entry hentry

theorem le_highestAddress {entries : List MemmapEntry} {entry : MemmapEntry}
    (hentry : entry ∈ entries.filter (·.type == .usable)) :
    entry.base + entry.length ≤ highestAddress entries :=
  (le_foldl_max _ 0).2 entry hentry

/-- `USER_SPAN_SIZE`. -/
def userSpanSize (highest : ℕ) : ℕ := highest / 2 + highest / 4

/-- The state of the loop that cuts the ranges into blocks. -/
structure Cut where
  blocks : BlockMemory
  index : ℕ
  sparePageList : List ℕ

/-- Pages `first` and following of a range, as `singly_linked_list_insert_head` leaves them. -/
def sparePages (range : PageRange) (first : ℕ) : List ℕ :=
  ((range' first (range.pages - first)).map fun page ↦
    range.startAddress + page * PAGE_SIZE).reverse

/-- One round of the loop over a range, for the block at page `page` of range number `number`. -/
def cutBlock (number : ℕ) (range : PageRange) (cut : Cut) (page : ℕ) : Option Cut :=
  if range.pages - page < 2 ^ MAX_ORDER then
    some { cut with sparePageList := sparePages range page ++ cut.sparePageList }
  else
    let block := descriptor cut.index
    let last := descriptor (cut.index - 1)
    let blocks := update cut.blocks block { cut.blocks block with
      -- `& ~(PAGE_SIZE - 1)`
      startAddress := (range.startAddress + page * PAGE_SIZE) / PAGE_SIZE * PAGE_SIZE
      staticPoolFlag := true
      firstBlockFlag := false
      inTreeFlag := false
      order := MAX_ORDER
      zone := number
      isFree := .free }
    let blocks :=
      if cut.index ≠ 0 ∧ (blocks last).zone = (blocks block).zone then
        update blocks last { blocks last with next := block, firstBlockFlag := true }
      else blocks
    if cut.index + 1 = STATIC_POOL_SIZE then none
    else some { cut with blocks := blocks, index := cut.index + 1 }

def cutRange (cut : Cut) (numbered : PageRange × ℕ) : Option Cut :=
  let (range, number) := numbered
  if range.pages < 2 ^ MAX_ORDER then
    some { cut with sparePageList := sparePages range 0 ++ cut.sparePageList }
  else do
    let cut ← (List.range ((range.pages + (2 ^ MAX_ORDER - 1)) / 2 ^ MAX_ORDER)).foldlM
      (fun cut round ↦ cutBlock number range cut (round * 2 ^ MAX_ORDER)) cut
    let last := descriptor (cut.index - 1)
    some { cut with blocks := update cut.blocks last
                      { cut.blocks last with next := descriptor cut.index } }

def cutRanges (ranges : List PageRange) : Option Cut :=
  ranges.zipIdx.foldlM cutRange ⟨fun _ ↦ BuddyBlock.zero, 0, []⟩

/-- The header that the loop over the rest of the static pool writes. -/
def unusedHeader (header : BuddyBlock) : BuddyBlock :=
  { header with
    next := NULL
    zone := UNUSED
    startAddress := 0
    staticPoolFlag := true
    firstBlockFlag := false
    inTreeFlag := false
    order := UNUSED_BYTE
    isFree := .free }

/-- The list that the loop leaves when it inserts `count` descriptors from `index` on at the
head. -/
def unusedDescriptors (index : ℕ) : ℕ → List Ptr
  | 0 => []
  | count + 1 => descriptor (index + count) :: unusedDescriptors index count

/-- The state after the loop over the rest of the static pool and the initialisation of the
trees. -/
def unfiledState (cut : Cut) (lists : NodeStore) : State where
  blocks block :=
    if descriptor cut.index ≤ block ∧ block < descriptor STATIC_POOL_SIZE then
      unusedHeader (cut.blocks block)
    else cut.blocks block
  buddyFreeListZone _ _ := []
  unusedBuddyBlocksList := unusedDescriptors cut.index (STATIC_POOL_SIZE - cut.index)
  usedBuddyHashTable := ⟨fun _ ↦ ⟨NULL, NULL, 0, false⟩, 0⟩
  lists := lists
  kallocLive := []
  totalAllocated := 0
  sparePageList := cut.sparePageList
  lowestUserPhysAddr := 2 ^ 64 - 1
  highestUserPhysAddr := 0

def fileBlock (userSpan : ℕ) (state : State) (index : ℕ) : Option State :=
  let block := descriptor index
  let header := state.blocks block
  if header.startAddress > userSpan then
    insertTreeNode (state.setBlock block { header with zone := KERNEL_POOL }) KERNEL_POOL block
      header.order
  else
    let state := { state with
      lowestUserPhysAddr := min state.lowestUserPhysAddr header.startAddress
      highestUserPhysAddr :=
        max state.highestUserPhysAddr (header.startAddress + 2 ^ MAX_ORDER * PAGE_SIZE) }
    insertTreeNode (state.setBlock block { header with zone := USER_POOL }) USER_POOL block
      header.order

/-- The loop over the blocks of range number `number`. -/
def fileRange (userSpan number : ℕ) : ℕ → State × ℕ → Option (State × ℕ)
  | 0, _ => none
  | fuel + 1, (state, index) =>
      if (state.blocks (descriptor index)).zone = number then do
        let state ← fileBlock userSpan state index
        fileRange userSpan number fuel (state, index + 1)
      else some (state, index)

/-- `phys_init`. With no usable range the sorting loop has no end, and `contiguous_pages` has room
for `PAGE_RANGE_SIZE` ranges. -/
def physInit (pool : List Ptr) (lists : NodeStore) (entries : List MemmapEntry) :
    Option State := do
  let (lists, _) ← SinglyLinkedList.init pool lists false
  let ranges := collectRanges entries
  if ranges.length = 0 ∨ PAGE_RANGE_SIZE < ranges.length then none
  else
    let ranges ← bubbleSort PageRange.pages ranges
    let cut ← cutRanges ranges
    let (state, _) ← (range ranges.length).foldlM
      (fun filing number ↦
        fileRange (userSpanSize (highestAddress entries)) number STATIC_POOL_SIZE filing)
      (unfiledState cut lists, 0)
    let (lists, table) ← staticHashTableInit pool state.lists state.usedBuddyHashTable
      HASH_TABLE_STATIC_POOL_SIZE
    pure { state with lists := lists, usedBuddyHashTable := table }

/-- **The sorting loop of `phys_init`.** It ends, looks up no range behind the last one, and leaves the
ranges by their numbers of pages, those of equal numbers in their old order. -/
theorem sweeps_ranges_sorted {ranges : List PageRange} (hranges : ranges ≠ []) (fuel : ℕ)
    (hfuel : inversions PageRange.pages ranges < fuel) :
    ∃ sorted, sweeps PageRange.pages fuel ranges = some sorted ∧ sorted ~ ranges ∧
      sorted.Pairwise (fun range later ↦ later.pages ≤ range.pages) ∧
      ∀ pages, sorted.filter (·.pages = pages) = ranges.filter (·.pages = pages) := by
  obtain ⟨sorted, hpasses, hsorts⟩ := passes_sorts PageRange.pages fuel ranges hfuel
  rw [sweeps_eq_passes PageRange.pages fuel hranges]
  exact ⟨sorted, hpasses, hsorts.perm, hsorts.ordered, hsorts.stable⟩

theorem sweeps_ranges_sorted_two :
    ∃ sorted, sweeps PageRange.pages 2 [⟨0, 1⟩, ⟨8192, 2⟩] = some sorted ∧
      sorted.Pairwise fun range later ↦ later.pages ≤ range.pages := by
  obtain ⟨sorted, hsort, -, hordered, -⟩ := sweeps_ranges_sorted
    (cons_ne_nil ⟨0, 1⟩ [⟨8192, 2⟩]) 2 (by decide)
  exact ⟨sorted, hsort, hordered⟩

/-- The blocks that a range is cut into: the number of the range, and a start address. -/
def rangeBlocks (numbered : PageRange × ℕ) : List (ℕ × ℕ) :=
  (range (numbered.1.pages / 2 ^ MAX_ORDER)).map fun round ↦
    (numbered.2, numbered.1.startAddress + round * 2 ^ MAX_ORDER * PAGE_SIZE)

structure MadeHeader (made : ℕ × ℕ) (header : BuddyBlock) : Prop where
  zone : header.zone = made.1
  start : header.startAddress = made.2
  order : header.order = MAX_ORDER
  isFree : header.isFree = .free
  static : header.staticPoolFlag = true
  next : header.next = NULL ∨ IsStatic header.next

/-- The blocks made so far are at the beginning of the static pool; the rest of it has not been
linked yet. -/
structure CutMade (cut : Cut) (made : List (ℕ × ℕ)) : Prop where
  index : cut.index = made.length
  bound : made.length < STATIC_POOL_SIZE
  header : ∀ position block, made[position]? = some block →
    MadeHeader block (cut.blocks (descriptor position))
  rest : ∀ position, made.length ≤ position → (cut.blocks (descriptor position)).next = NULL

variable {cut : Cut} {made : List (ℕ × ℕ)} {range : PageRange} {number num : ℕ}

theorem isStatic_descriptor {idx : ℕ} (hidx : idx < STATIC_POOL_SIZE) :
    IsStatic (descriptor idx) :=
  ⟨Nat.succ_pos idx, hidx⟩

theorem descriptor_ne {idx other : ℕ} (hne : idx ≠ other) :
    descriptor idx ≠ descriptor other :=
  fun h ↦ hne (Nat.succ.inj h)

theorem CutMade.setNext (hmade : CutMade cut made) {last : ℕ} (hlast : last < made.length)
    {next : Ptr} (hnext : IsStatic next) (flag : Bool) :
    CutMade ⟨update cut.blocks (descriptor last)
      { cut.blocks (descriptor last) with next := next, firstBlockFlag := flag },
      cut.index, cut.sparePageList⟩ made where
  index := hmade.index
  bound := hmade.bound
  header pos block hblock := by
    have hhdr := hmade.header pos block hblock
    by_cases h : pos = last
    · subst h
      simp only [update_self]
      exact { hhdr with next := .inr hnext }
    · simpa [descriptor_ne h] using hhdr
  rest pos hposition := by
    have h : pos ≠ last := by omega
    simpa [descriptor_ne h] using hmade.rest pos hposition

def newHeader (header : BuddyBlock) (number start : ℕ) : BuddyBlock :=
  { header with
    startAddress := start
    staticPoolFlag := true
    firstBlockFlag := false
    inTreeFlag := false
    order := MAX_ORDER
    zone := number
    isFree := .free }

theorem CutMade.append (hmade : CutMade cut made) (hbound : made.length + 1 < STATIC_POOL_SIZE)
    (number start : ℕ) :
    CutMade ⟨update cut.blocks (descriptor cut.index)
      (newHeader (cut.blocks (descriptor cut.index)) number start), cut.index + 1,
      cut.sparePageList⟩ (made ++ [(number, start)]) where
  index := by simp [hmade.index]
  bound := by simpa using hbound
  header pos block hblock := by
    rw [hmade.index]
    by_cases h : pos = made.length
    · subst h
      obtain rfl : (number, start) = block := by simpa using hblock
      simp only [update_self]
      exact ⟨rfl, rfl, rfl, rfl, rfl, .inl (hmade.rest _ le_rfl)⟩
    · have hold : made[pos]? = some block := by
        have hlt : pos < (made ++ [(number, start)]).length :=
          (List.getElem?_eq_some_iff.mp hblock).1
        simp only [length_append, length_singleton] at hlt
        rwa [getElem?_append_left (by omega)] at hblock
      simpa [descriptor_ne h] using hmade.header pos block hold
  rest pos hposition := by
    simp only [length_append, length_singleton] at hposition
    rw [hmade.index]
    have h : pos ≠ made.length := by omega
    simpa [descriptor_ne h] using hmade.rest pos (by omega)

def PageRange.rounded (range : PageRange) : PageRange :=
  { range with startAddress := range.startAddress / PAGE_SIZE * PAGE_SIZE }

/-- The spare pages of a range: those behind its last block. -/
def spareOf (range : PageRange) : List ℕ :=
  sparePages range (range.pages / 2 ^ MAX_ORDER * 2 ^ MAX_ORDER)

/-- The blocks and the spare pages that ranges are cut into. -/
abbrev Parts := List (ℕ × ℕ) × List ℕ

def Makes (cut : Cut) (parts : Parts) : Prop :=
  CutMade cut parts.1 ∧ cut.sparePageList = parts.2

def FitsPool (parts : Parts) : Prop := parts.1.length < STATIC_POOL_SIZE

def partsAt (number : ℕ) (range : PageRange) (parts : Parts) (page : ℕ) : Parts :=
  if range.pages - page < 2 ^ MAX_ORDER then (parts.1, sparePages range page ++ parts.2)
  else (parts.1 ++ [(number, range.rounded.startAddress + page * PAGE_SIZE)], parts.2)

def partsOf (parts : Parts) (numbered : PageRange × ℕ) : Parts :=
  (parts.1 ++ rangeBlocks (numbered.1.rounded, numbered.2), spareOf numbered.1 ++ parts.2)

variable {parts : Parts}

theorem cutBlock_yields (hmakes : Makes cut parts) (number : ℕ) (range : PageRange) (page : ℕ) :
    Yields Makes FitsPool (cutBlock number range cut page) (partsAt number range parts page) := by
  obtain ⟨hmade, hspare⟩ := hmakes
  unfold cutBlock partsAt
  split
  · exact ⟨{ hmade with }, congrArg _ hspare⟩
  have hstart : (range.startAddress + page * PAGE_SIZE) / PAGE_SIZE * PAGE_SIZE =
      range.rounded.startAddress + page * PAGE_SIZE := by
    rw [Nat.add_mul_div_right _ _ (by decide), add_mul]
    rfl
  have hbound := hmade.bound
  have hidx : cut.index < STATIC_POOL_SIZE := hmade.index ▸ hbound
  rw [hstart]
  simp only
  split
  · rename_i hfull
    rw [hmade.index] at hfull
    intro hfits
    rw [FitsPool, length_append, length_singleton, hfull] at hfits
    exact lt_irrefl _ hfits
  rename_i hroom
  have hnew := hmade.append (by rw [hmade.index] at hroom; omega) number
    (range.rounded.startAddress + page * PAGE_SIZE)
  refine ⟨?_, hspare⟩
  split
  · refine hnew.setNext ?_ (isStatic_descriptor hidx) true
    rw [hmade.index, length_append, length_singleton]
    omega
  · exact hnew

theorem foldl_partsAt (num : ℕ) (range : PageRange) (parts : Parts) (rounds : ℕ)
    (hrounds : rounds * 2 ^ MAX_ORDER ≤ range.pages) :
    (List.range rounds).foldl
        (fun parts round ↦ partsAt num range parts (round * 2 ^ MAX_ORDER)) parts =
      (parts.1 ++ (List.range rounds).map fun round ↦
        (num, range.rounded.startAddress + round * 2 ^ MAX_ORDER * PAGE_SIZE), parts.2) := by
  induction rounds with
  | zero => simp
  | succ rounds ih =>
    rw [Nat.succ_mul] at hrounds
    rw [range_succ, foldl_append, ih ((Nat.le_add_right ..).trans hrounds),
      foldl_cons, foldl_nil, partsAt, if_neg (by omega), map_append, map_singleton, append_assoc]

theorem foldl_partsAt_all (num : ℕ) (range : PageRange) (parts : Parts) :
    (List.range ((range.pages + (2 ^ MAX_ORDER - 1)) / 2 ^ MAX_ORDER)).foldl
        (fun parts round ↦ partsAt num range parts (round * 2 ^ MAX_ORDER)) parts =
      partsOf parts (range, num) := by
  have hmax : (2 : ℕ) ^ MAX_ORDER = 1024 := rfl
  have hwhole := foldl_partsAt num range parts _ (Nat.div_mul_le_self range.pages (2 ^ MAX_ORDER))
  by_cases hexact : range.pages % 2 ^ MAX_ORDER = 0
  · have hrounds : (range.pages + (2 ^ MAX_ORDER - 1)) / 2 ^ MAX_ORDER =
        range.pages / 2 ^ MAX_ORDER := by
      rw [hmax] at hexact ⊢
      omega
    have hnone : range.pages - range.pages / 2 ^ MAX_ORDER * 2 ^ MAX_ORDER = 0 := by
      rw [hmax] at hexact ⊢
      omega
    rw [hrounds, hwhole]
    simp [partsOf, rangeBlocks, PageRange.rounded, spareOf, sparePages, hnone]
  · have hrounds : (range.pages + (2 ^ MAX_ORDER - 1)) / 2 ^ MAX_ORDER =
        range.pages / 2 ^ MAX_ORDER + 1 := by
      rw [hmax] at hexact ⊢
      omega
    rw [hrounds, range_succ, foldl_append, hwhole, foldl_cons, foldl_nil,
      partsAt, if_pos (by rw [hmax]; omega)]
    rfl

theorem cutRange_yields (hmakes : Makes cut parts) (numbered : PageRange × ℕ) :
    Yields Makes FitsPool (cutRange cut numbered) (partsOf parts numbered) := by
  obtain ⟨range, number⟩ := numbered
  simp only [cutRange]
  split
  · rename_i hsmall
    obtain ⟨hmade, hspare⟩ := hmakes
    have hnone : range.pages / 2 ^ MAX_ORDER = 0 := Nat.div_eq_of_lt hsmall
    simp only [partsOf, rangeBlocks, PageRange.rounded, spareOf, hnone, range_zero,
      map_nil, append_nil, zero_mul]
    exact ⟨{ hmade with }, congrArg _ hspare⟩
  rename_i hlarge
  have hback : ∀ {parts : Parts} {round : ℕ},
      FitsPool (partsAt number range parts (round * 2 ^ MAX_ORDER)) → FitsPool parts := by
    intro parts round hfits
    unfold FitsPool partsAt at *
    split at hfits
    · exact hfits
    · rw [length_append] at hfits
      exact (Nat.le_add_right ..).trans_lt hfits
  have hloop := Yields.foldlM
    (fun cut round ↦ cutBlock number range cut (round * 2 ^ MAX_ORDER))
    (fun parts round ↦ partsAt number range parts (round * 2 ^ MAX_ORDER)) hback
    (fun round hmakes ↦ cutBlock_yields hmakes number range _)
    (List.range ((range.pages + (2 ^ MAX_ORDER - 1)) / 2 ^ MAX_ORDER)) hmakes
  rw [foldl_partsAt_all] at hloop
  cases hfold : (List.range ((range.pages + (2 ^ MAX_ORDER - 1)) / 2 ^ MAX_ORDER)).foldlM
    (fun cut round ↦ cutBlock number range cut (round * 2 ^ MAX_ORDER)) cut with
  | none =>
    rw [hfold] at hloop
    exact hloop
  | some whole =>
    rw [hfold] at hloop
    obtain ⟨hmade, hspare⟩ := hloop
    have hpos : 0 < range.pages / 2 ^ MAX_ORDER := Nat.div_pos (not_lt.mp hlarge) (by decide)
    refine ⟨hmade.setNext ?_ (isStatic_descriptor (hmade.index ▸ hmade.bound)) _, hspare⟩
    have hlen : 0 < (partsOf parts (range, number)).1.length := by
      simp only [partsOf, rangeBlocks, PageRange.rounded, length_append, length_map, length_range]
      omega
    rw [hmade.index]
    omega

/-- The blocks of the sorted ranges, in the order of the pool. -/
abbrev blocksOf (ranges : List PageRange) : List (ℕ × ℕ) := ranges.zipIdx.flatMap rangeBlocks

theorem foldl_partsOf : ∀ (numbered : List (PageRange × ℕ)) (parts : Parts),
    numbered.foldl partsOf parts =
      (parts.1 ++ numbered.flatMap (fun one ↦ rangeBlocks (one.1.rounded, one.2)),
        numbered.reverse.flatMap (fun one ↦ spareOf one.1) ++ parts.2)
  | [], parts => by simp
  | one :: numbered, parts => by
      rw [foldl_cons, foldl_partsOf numbered]
      simp [partsOf]

theorem cutRanges_yields (ranges : List PageRange) :
    Yields Makes FitsPool (cutRanges ranges)
      (blocksOf (ranges.map PageRange.rounded),
        ranges.zipIdx.reverse.flatMap fun one ↦ spareOf one.1) := by
  have hback : ∀ {parts : Parts} {numbered : PageRange × ℕ},
      FitsPool (partsOf parts numbered) → FitsPool parts := by
    intro parts numbered hfits
    rw [FitsPool, partsOf, length_append] at hfits
    exact (Nat.le_add_right ..).trans_lt hfits
  have hempty : Makes ⟨fun _ ↦ BuddyBlock.zero, 0, []⟩ ([], []) :=
    ⟨⟨rfl, by decide, by simp, fun _ _ ↦ rfl⟩, rfl⟩
  have hloop := Yields.foldlM cutRange partsOf hback (fun one hmakes ↦ cutRange_yields hmakes one)
    ranges.zipIdx hempty
  rw [foldl_partsOf, nil_append, append_nil] at hloop
  rw [blocksOf, zipIdx_map, flatMap_map]
  exact hloop

theorem length_blocksOf (ranges : List PageRange) : (blocksOf ranges).length =
    (ranges.map fun range ↦ range.pages / 2 ^ MAX_ORDER).sum := by
  conv_rhs => rw [← zipIdx_map_fst 0 ranges, map_map]
  simp [rangeBlocks, comp_def]

end DionysOS.Memory.Pmm
