import DionysOS.Memory.PmmInit

/-!
# The accounts after initialisation

`Filing` describes the loop that files the blocks: the first `done` descriptors have the zone of
their address and are in its tree, the others still have the number of their range. The loop stops
where the number changes, and behind the last block at an unused descriptor.
-/

namespace DionysOS.Memory.Pmm

open DataStructures List Function SinglyLinkedList State
open DataStructures.HashTable
open Foundation.BubbleSort (bubbleSort bubbleSort_perm)

/-- The zone of a block that starts at `start`. -/
def zoneOf (userSpan start : ℕ) : ℕ := if start > userSpan then KERNEL_POOL else USER_POOL

/-- The first `done` descriptors of the pool have been filed. -/
structure Filing (userSpan : ℕ) (original state : State) (done : ℕ) : Prop where
  blocks : ∀ block : ℕ, state.blocks block =
    if 0 < block ∧ block ≤ done then
      { original.blocks block with
        zone := zoneOf userSpan (original.blocks block).startAddress }
    else original.blocks block
  trees : ∀ zone key, state.buddyFreeListZone zone key =
    if key = MAX_ORDER then
      (range' 1 done).filter fun block ↦
        zoneOf userSpan (original.blocks block).startAddress == zone
    else []
  unused : state.unusedBuddyBlocksList = original.unusedBuddyBlocksList
  kalloc : state.kallocLive = original.kallocLive
  lists : state.lists = original.lists

variable {userSpan done number num : ℕ} {original state : State}

theorem zoneOf_lt (userSpan start : ℕ) : zoneOf userSpan start < ZONES := by
  unfold zoneOf
  split <;> decide

theorem fileBlock_eq (userSpan : ℕ) {home idx : ℕ} {state : State} {header : BuddyBlock}
    (hhdr : state.blocks (descriptor idx) = header)
    (hhome : zoneOf userSpan header.startAddress = home) :
    ∃ lowest highest, fileBlock userSpan state idx =
      some ((setBlock { state with lowestUserPhysAddr := lowest, highestUserPhysAddr := highest }
        (descriptor idx) { header with zone := home }).setEntries home header.order
        (state.buddyFreeListZone home header.order ++ [descriptor idx])) := by
  subst hhdr hhome
  by_cases hspan : (state.blocks (descriptor idx)).startAddress > userSpan
  · refine ⟨state.lowestUserPhysAddr, state.highestUserPhysAddr, ?_⟩
    simp only [fileBlock, zoneOf, if_pos hspan]
    exact insertTreeNode_eq (by decide) _ _
  · refine ⟨min state.lowestUserPhysAddr (state.blocks (descriptor idx)).startAddress,
      max state.highestUserPhysAddr
        ((state.blocks (descriptor idx)).startAddress + 2 ^ MAX_ORDER * PAGE_SIZE), ?_⟩
    simp only [fileBlock, zoneOf, if_neg hspan]
    exact insertTreeNode_eq (by decide) _ _

section

variable {holds : State → Prop} (hstep : ∀ {state idx after}, holds state →
  fileBlock userSpan state idx = some after → holds after)
include hstep

theorem fileRange_preserves : ∀ (fuel : ℕ) {filing after : State × ℕ}, holds filing.1 →
    fileRange userSpan num fuel filing = some after → holds after.1
  | 0, _, _, _, hfile => by cases hfile
  | fuel + 1, (state, idx), after, hholds, hfile => by
      unfold fileRange at hfile
      split at hfile
      · obtain ⟨filed, hfiled, hrest⟩ := Option.bind_eq_some_iff.mp hfile
        exact fileRange_preserves fuel (hstep hholds hfiled) hrest
      · cases hfile
        exact hholds

theorem foldlM_fileRange_preserves {fuel : ℕ} :
    ∀ (numbers : List ℕ) {filing after : State × ℕ}, holds filing.1 →
      numbers.foldlM (fun filing num ↦ fileRange userSpan num fuel filing) filing =
        some after → holds after.1
  | [], _, _, hholds, hfold => by
      cases hfold
      exact hholds
  | num :: numbers, filing, after, hholds, hfold => by
      obtain ⟨mid, hmiddle, hrest⟩ := Option.bind_eq_some_iff.mp hfold
      exact foldlM_fileRange_preserves numbers (fileRange_preserves hstep fuel hholds hmiddle) hrest

end

theorem foldlM_fileRange_frame {userSpan fuel : ℕ} (numbers : List ℕ) {filing after : State × ℕ}
    (hfold : numbers.foldlM (fun filing num ↦ fileRange userSpan num fuel filing) filing =
      some after) : after.1.sparePageList = filing.1.sparePageList ∧
      after.1.totalAllocated = filing.1.totalAllocated := by
  refine @foldlM_fileRange_preserves userSpan (fun state ↦ state.sparePageList =
    filing.1.sparePageList ∧ state.totalAllocated = filing.1.totalAllocated) ?_ fuel numbers filing
    after ⟨rfl, rfl⟩ hfold
  intro state idx filed hsame hfile
  obtain ⟨lowest, highest, heq⟩ := fileBlock_eq _ (Eq.refl (state.blocks (descriptor idx))) rfl
  cases heq.symm.trans hfile
  exact hsame

theorem Filing.current (hfiling : Filing userSpan original state done) :
    state.blocks (descriptor done) = original.blocks (descriptor done) := by
  rw [hfiling.blocks, if_neg]
  rintro ⟨-, h⟩
  exact absurd h (Nat.not_succ_le_self done)

theorem Filing.step (hfiling : Filing userSpan original state done)
    (horder : (original.blocks (descriptor done)).order = MAX_ORDER) :
    ∃ after, fileBlock userSpan state done = some after ∧
      Filing userSpan original after (done + 1) := by
  obtain ⟨lowest, highest, hfile⟩ := fileBlock_eq userSpan hfiling.current rfl
  rw [horder] at hfile
  refine ⟨_, hfile, ⟨fun block ↦ ?_, fun zone key ↦ ?_, hfiling.unused, hfiling.kalloc,
    hfiling.lists⟩⟩
  · by_cases h : block = descriptor done
    · subst h
      have hrange : 0 < descriptor done ∧ descriptor done ≤ done + 1 :=
        ⟨Nat.succ_pos done, le_rfl⟩
      simp [setEntries, setBlock, hrange, horder]
    · have hiff : (0 < block ∧ block ≤ done + 1) ↔ (0 < block ∧ block ≤ done) := by
        unfold descriptor at h
        omega
      simp only [setEntries, setBlock, update_of_ne h, hfiling.blocks, hiff]
  · have hrange : range' 1 (done + 1) = range' 1 done ++ [descriptor done] := by
      rw [range'_concat, descriptor]
      simp [add_comm]
    let home := zoneOf userSpan (original.blocks (descriptor done)).startAddress
    by_cases hkey : key = MAX_ORDER
    · subst hkey
      rw [if_pos rfl, hrange, filter_append]
      by_cases hzone : zone = home
      · subst hzone
        simp [setEntries, home, setBlock, hfiling.trees]
      · have hother : (home == zone) = false := by simpa using Ne.symm hzone
        simp only [setEntries, setBlock, home] at hzone hother ⊢
        rw [update_of_ne hzone, hfiling.trees, if_pos rfl]
        simp [hother]
    · rw [if_neg hkey]
      have hold := hfiling.trees zone key
      rw [if_neg hkey] at hold
      by_cases hzone : zone = home
      · subst hzone
        simpa [setEntries, home, setBlock, hkey] using hold
      · simp only [setEntries, setBlock, home] at hzone ⊢
        rw [update_of_ne hzone]
        exact hold

theorem fileRange_spec {limit : ℕ} (number count : ℕ) :
    ∀ {state : State} {done : ℕ} (fuel : ℕ), Filing userSpan original state done →
      done + count ≤ limit →
      (∀ pos < limit, (original.blocks (descriptor pos)).order = MAX_ORDER) →
      (∀ pos < count, (original.blocks (descriptor (done + pos))).zone = number) →
      (original.blocks (descriptor (done + count))).zone ≠ number → count < fuel →
      ∃ after, fileRange userSpan number fuel (state, done) = some (after, done + count) ∧
        Filing userSpan original after (done + count) := by
  induction count with
  | zero =>
    intro state done fuel hfiling _ _ _ hstop hfuel
    obtain ⟨fuel, rfl⟩ : ∃ k, fuel = k + 1 := ⟨fuel - 1, by omega⟩
    rw [add_zero] at hstop
    refine ⟨state, ?_, hfiling⟩
    rw [fileRange, hfiling.current, if_neg hstop]
    rfl
  | succ count ih =>
    intro state done fuel hfiling hlimit horder hnum hstop hfuel
    obtain ⟨fuel, rfl⟩ : ∃ k, fuel = k + 1 := ⟨fuel - 1, by omega⟩
    obtain ⟨middle, hfile, hmiddle⟩ := hfiling.step (horder done (by omega))
    have hshift : ∀ pos, done + 1 + pos = done + (pos + 1) := by omega
    obtain ⟨after, hloop, hafter⟩ := ih fuel hmiddle (by omega) horder
      (fun pos hposition ↦ by rw [hshift]; exact hnum (pos + 1) (by omega))
      (by rw [hshift]; exact hstop) (by omega)
    rw [hshift] at hloop hafter
    refine ⟨after, ?_, hafter⟩
    have hzone : (state.blocks (descriptor done)).zone = number := by
      rw [hfiling.current]
      exact hnum 0 (Nat.succ_pos count)
    rw [fileRange, if_pos hzone]
    simp only [hfile, Option.bind_eq_bind, Option.bind_some, hloop]

variable {block : ℕ × ℕ} {count start : ℕ} {fits room : ℕ → ℕ → Prop} {cut : Cut}
  {lists : NodeStore} {pool : List Ptr}

theorem number_le_of_mem {first : ℕ} {ranges : List PageRange}
    (hblock : block ∈ (ranges.zipIdx first).flatMap rangeBlocks) : first ≤ block.1 := by
  obtain ⟨one, hone, hmem⟩ := mem_flatMap.mp hblock
  obtain ⟨round, -, rfl⟩ := mem_map.mp hmem
  exact (mem_zipIdx hone).1

theorem foldlM_fileRange {limit : ℕ} (hlimit : limit < STATIC_POOL_SIZE)
    (horder : ∀ pos < limit, (original.blocks (descriptor pos)).order = MAX_ORDER)
    (hend : (original.blocks (descriptor limit)).zone = UNUSED) :
    ∀ (ranges : List PageRange) (first : ℕ) (before : List (ℕ × ℕ)) {state : State},
      first + ranges.length ≤ UNUSED →
      (∀ pos block, (before ++ (ranges.zipIdx first).flatMap rangeBlocks)[pos]? =
        some block → (original.blocks (descriptor pos)).zone = block.1) →
      (before ++ (ranges.zipIdx first).flatMap rangeBlocks).length = limit →
      Filing userSpan original state before.length →
      ∃ after, (range' first ranges.length).foldlM
          (fun filing number ↦ fileRange userSpan number STATIC_POOL_SIZE filing)
          (state, before.length) = some (after, limit) ∧
        Filing userSpan original after limit
  | [], first, before, state, _, _, hlen, hfiling => by
      have hbefore : before.length = limit := by simpa using hlen
      rw [hbefore] at hfiling ⊢
      exact ⟨state, rfl, hfiling⟩
  | range :: ranges, first, before, state, hfirst, hzone, hlen, hfiling => by
      rw [zipIdx_cons, flatMap_cons] at hzone hlen
      let run := rangeBlocks (range, first)
      let later := (ranges.zipIdx (first + 1)).flatMap rangeBlocks
      have hsum : before.length + run.length + later.length = limit := by
        simpa [run, later, add_assoc] using hlen
      have hnum : ∀ pos < run.length,
          (original.blocks (descriptor (before.length + pos))).zone = first := by
        intro pos hposition
        have hget : (before ++ (run ++ later))[before.length + pos]? =
            some (run.get ⟨pos, hposition⟩) := by
          rw [getElem?_append_right (Nat.le_add_right ..), Nat.add_sub_cancel_left,
            getElem?_append_left hposition]
          exact getElem?_eq_getElem hposition
        rw [hzone _ _ hget]
        simp [run, rangeBlocks]
      have hstop : (original.blocks (descriptor (before.length + run.length))).zone ≠ first := by
        cases hlater : later with
        | nil =>
          rw [hlater, length_nil, add_zero] at hsum
          rw [hsum, hend]
          simp only [length_cons] at hfirst
          omega
        | cons block blocks =>
          have hget : (before ++ (run ++ later))[before.length + run.length]? = some block := by
            rw [getElem?_append_right (Nat.le_add_right ..), Nat.add_sub_cancel_left,
              getElem?_append_right le_rfl, Nat.sub_self, hlater]
            rfl
          rw [hzone _ _ hget]
          have hle : first + 1 ≤ block.1 := number_le_of_mem (by
            change block ∈ later
            rw [hlater]
            exact mem_cons_self)
          omega
      obtain ⟨middle, hrange, hmiddle⟩ := fileRange_spec first run.length STATIC_POOL_SIZE hfiling
        (by omega) horder hnum hstop (by omega)
      have hassoc : before ++ (run ++ later) = before ++ run ++ later :=
        (append_assoc ..).symm
      rw [← length_append] at hrange hmiddle
      obtain ⟨after, hfold, hafter⟩ := foldlM_fileRange hlimit horder hend ranges (first + 1)
        (before ++ run)
        (show first + 1 + ranges.length ≤ UNUSED by
          simp only [length_cons] at hfirst
          omega)
        (fun pos block hblock ↦ hzone pos block (by rw [hassoc]; exact hblock))
        (by rw [← hlen]; exact congrArg length hassoc.symm) hmiddle
      refine ⟨after, ?_, hafter⟩
      rw [length_cons, range'_succ, foldlM_cons, hrange]
      exact hfold

theorem unusedDescriptors_eq (idx count : ℕ) :
    unusedDescriptors idx count = (range' (idx + 1) count).reverse := by
  induction count with
  | zero => rfl
  | succ count ih =>
    have hlast : idx + 1 + count = idx + count + 1 := by omega
    rw [unusedDescriptors, ih, range'_concat, reverse_append, one_mul, hlast]
    rfl

/-- What the filing loop starts from. -/
structure Unfiled (fits : ℕ → ℕ → Prop) (original : State) (count : ℕ) : Prop where
  bound : count < STATIC_POOL_SIZE
  header : ∀ block : ℕ, 0 < block → block ≤ count →
    ∃ number start, MadeHeader (number, start) (original.blocks block) ∧ PAGE_SIZE ∣ start ∧
      fits start MAX_ORDER
  unused : original.unusedBuddyBlocksList = unusedDescriptors count (STATIC_POOL_SIZE - count)
  rest : ∀ block : ℕ, count < block → block ≤ STATIC_POOL_SIZE →
    (original.blocks block).order = UNUSED_BYTE ∧ (original.blocks block).staticPoolFlag = true

theorem Filing.allFiled_perm (hfiling : Filing userSpan original state count) :
    allFiled state ~ range' 1 count := by
  let home : ℕ → ℕ := fun block ↦ zoneOf userSpan (original.blocks block).startAddress
  have hzone : ∀ zone, filedBlocks state zone =
      (range' 1 count).filter fun block ↦ home block == zone := by
    intro zone
    have hlow : (range MAX_ORDER).flatMap (state.buddyFreeListZone zone) = [] := by
      apply flatMap_eq_nil_iff.mpr
      intro key hkey
      rw [hfiling.trees, if_neg (ne_of_lt (mem_range.mp hkey))]
    rw [filedBlocks, range_succ, flatMap_append, hlow, nil_append,
      flatMap_singleton, hfiling.trees, if_pos rfl]
  have huser : (range' 1 count).filter (fun block ↦ home block == 1) =
      (range' 1 count).filter fun block ↦ !(home block == 0) := by
    apply filter_congr
    intro block _
    have hlt : home block < 2 := zoneOf_lt ..
    obtain h | h : home block = 0 ∨ home block = 1 := by omega
    · simp [h]
    · simp [h]
  rw [allFiled_eq, hzone, hzone, huser]
  exact filter_append_perm ..

theorem Filing.accounted (hunfiled : Unfiled fits original count)
    (hfiling : Filing userSpan original state count) :
    Accounted fits ((allFiled state).flatMap fun block ↦ zonedPages (state.blocks block)) state
      [] := by
  have hperm := hfiling.allFiled_perm
  have hlive : live state [] = allFiled state := rfl
  have hmem : ∀ block : ℕ, block ∈ allFiled state ↔ 0 < block ∧ block ≤ count := by
    intro block
    rw [hperm.mem_iff, mem_range'_1]
    omega
  have hunused : state.unusedBuddyBlocksList =
      (range' (count + 1) (STATIC_POOL_SIZE - count)).reverse := by
    rw [hfiling.unused, hunfiled.unused, unusedDescriptors_eq]
  have hmemUnused : ∀ block : ℕ, block ∈ state.unusedBuddyBlocksList ↔
      count < block ∧ block ≤ STATIC_POOL_SIZE := by
    intro block
    rw [hunused, mem_reverse, mem_range'_1]
    omega
  have hfiled : ∀ block : ℕ, block ∈ allFiled state → ∃ num start,
      MadeHeader (num, start) (original.blocks block) ∧
        (original.blocks block).startAddress = start ∧ PAGE_SIZE ∣ start ∧ fits start MAX_ORDER ∧
        state.blocks block = { original.blocks block with zone := zoneOf userSpan start } := by
    intro block hblock
    have hrange := (hmem block).mp hblock
    obtain ⟨num, start, hhdr, haligned, hfits⟩ := hunfiled.header block hrange.1 hrange.2
    have hstart := hhdr.start
    refine ⟨num, start, hhdr, hstart, haligned, hfits, ?_⟩
    rw [hfiling.blocks, if_pos hrange, hstart]
  have hnext : ∀ block ∈ allFiled state, (state.blocks block).next = NULL ∨
      IsStatic (state.blocks block).next := by
    intro block hblock
    obtain ⟨num, start, hhdr, -, -, -, hblocks⟩ := hfiled block hblock
    rw [hblocks]
    exact hhdr.next
  refine ⟨?_, ?_, ?_, ?_, ?_, ?_, ?_, ?_, .refl _⟩
  · intro zone hzone key block hblock
    rw [hfiling.trees] at hblock
    split at hblock
    · rename_i hkey
      obtain ⟨hrange, hhome⟩ := mem_filter.mp hblock
      obtain ⟨num, _, hhdr, rfl, -, -, hblocks⟩ := hfiled block (hperm.mem_iff.mpr hrange)
      rw [hblocks]
      refine ⟨by simpa using hhome, hhdr.order.trans hkey.symm, hkey.le, hhdr.isFree, ?_⟩
      exact fun hlt ↦ absurd hkey hlt.ne
    · cases hblock
  · rw [hlive]
    intro block hblock
    obtain ⟨num, _, hhdr, rfl, haligned, hfits, hblocks⟩ := hfiled block hblock
    have hrange := (hmem block).mp hblock
    rw [hblocks]
    refine ⟨hhdr.order.le, zoneOf_lt .., haligned, ?_, ?_⟩
    · simp only [hhdr.order]
      exact hfits
    · simp only [hhdr.static, if_true]
      exact ⟨hrange.1, hrange.2.trans hunfiled.bound.le⟩
  · intro block hblock
    obtain ⟨hlow, hhigh⟩ := (hmemUnused block).mp hblock
    rw [hfiling.blocks, if_neg (fun h ↦ absurd h.2 (not_le.mpr hlow))]
    obtain ⟨horder, hstatic⟩ := hunfiled.rest block hlow hhigh
    exact ⟨horder, hstatic, Nat.zero_lt_of_lt hlow, hhigh⟩
  · rw [hlive, nodup_append]
    refine ⟨hperm.nodup_iff.mpr nodup_range', ?_, ?_⟩
    · rw [hunused, nodup_reverse]
      exact nodup_range'
    · intro block hblock other hother heq
      have hlow := ((hmem block).mp hblock).2
      have hhigh := ((hmemUnused other).mp hother).1
      exact absurd (heq ▸ hlow) (not_le.mpr hhigh)
  · rw [hlive, mem_append]
    rintro (h | h)
    · exact absurd ((hmem NULL).mp h).1 (lt_irrefl 0)
    · exact absurd ((hmemUnused NULL).mp h).1 (Nat.not_lt_zero _)
  · intro block hstatic
    rw [hlive, mem_append]
    by_cases hlow : block ≤ count
    · exact .inl ((hmem block).mpr ⟨hstatic.1, hlow⟩)
    · exact .inr ((hmemUnused block).mpr ⟨not_le.mp hlow, hstatic.2⟩)
  · rw [hlive]
    intro block hblock
    exact (hnext block hblock).imp_right .inl
  · rw [hlive]
    intro block hblock other _ _ hnull hdynamic
    rcases hnext block hblock with h | h
    · exact absurd h hnull
    · exact absurd h hdynamic

/-- What the bootloader promises: usable ranges are page-aligned and do not overlap. -/
structure WellFormedMap (entries : List MemmapEntry) : Prop where
  aligned : ∀ entry ∈ entries.filter (·.type == .usable),
    PAGE_SIZE ∣ entry.base ∧ PAGE_SIZE ∣ entry.length
  disjoint : (entries.filter (·.type == .usable)).Pairwise fun entry other ↦
    entry.base + entry.length ≤ other.base ∨ other.base + other.length ≤ entry.base

/-- The maps that `phys_init` accepts: it has room for the ranges, and for the blocks. -/
structure Accepts (entries : List MemmapEntry) : Prop where
  nonempty : (collectRanges entries).length ≠ 0
  ranges : (collectRanges entries).length ≤ PAGE_RANGE_SIZE
  blocks : ((collectRanges entries).map fun range ↦ range.pages / 2 ^ MAX_ORDER).sum <
    STATIC_POOL_SIZE

/-- `pages` pages from `start` on lie inside one usable range. -/
def Within (entries : List MemmapEntry) (start pages : ℕ) : Prop :=
  ∃ entry ∈ entries.filter (·.type == .usable), entry.base ≤ start ∧
    start + pages * PAGE_SIZE ≤ entry.base + entry.length

instance (entries : List MemmapEntry) (start pages : ℕ) : Decidable (Within entries start pages) :=
  inferInstanceAs (Decidable (∃ entry ∈ _, _))

/-- A condition on runs of pages, as one on the start and the order of blocks. -/
abbrev Fitting (room : ℕ → ℕ → Prop) (start order : ℕ) : Prop := room start (2 ^ order)

theorem halving_within (entries : List MemmapEntry) : Halving (Fitting (Within entries)) := by
  rintro start order ⟨entry, hentry, hlow, hhigh⟩
  rw [pow_succ, Nat.mul_two, add_mul] at hhigh
  exact ⟨⟨entry, hentry, hlow, by omega⟩, ⟨entry, hentry, by omega, by omega⟩⟩

variable {entries : List MemmapEntry} {ranges : List PageRange}

def pagesFrom (start count : ℕ) : List ℕ :=
  (range count).map fun page ↦ start + page * PAGE_SIZE

def usablePages (entries : List MemmapEntry) : List ℕ :=
  (entries.filter (·.type == .usable)).flatMap fun entry ↦
    pagesFrom entry.base (entry.length / PAGE_SIZE)

theorem pagesFrom_add (start first second : ℕ) :
    pagesFrom start (first + second) =
      pagesFrom start first ++ pagesFrom (start + first * PAGE_SIZE) second := by
  simp only [pagesFrom, range_add, map_append, map_map]
  refine congrArg _ (map_congr_left fun page _ ↦ ?_)
  simp only [comp_apply]
  ring

theorem mem_pagesFrom {page : ℕ} :
    page ∈ pagesFrom start count ↔ ∃ idx < count, page = start + idx * PAGE_SIZE := by
  simp [pagesFrom, eq_comm]

theorem nodup_pagesFrom (start count : ℕ) : (pagesFrom start count).Nodup :=
  nodup_range.map fun first second hsame ↦
    Nat.eq_of_mul_eq_mul_right (by decide : 0 < PAGE_SIZE) (add_left_cancel hsame)

theorem map_range'_pages (haligned : PAGE_SIZE ∣ start) (count : ℕ) :
    (range' (start / PAGE_SIZE) count).map (· * PAGE_SIZE) = pagesFrom start count := by
  rw [range'_eq_map_range, map_map, pagesFrom]
  refine map_congr_left fun page _ ↦ ?_
  rw [comp_apply, add_mul, Nat.div_mul_cancel haligned]

theorem WellFormedMap.nodup_usablePages (hmap : WellFormedMap entries) :
    (usablePages entries).Nodup := by
  refine nodup_flatMap.mpr ⟨fun _ _ ↦ nodup_pagesFrom .., ?_⟩
  refine hmap.disjoint.imp_of_mem fun {entry other} hentry hother hdisj page hpage hpage' ↦ ?_
  obtain ⟨-, ⟨length, hlen⟩⟩ := hmap.aligned entry hentry
  obtain ⟨-, ⟨length', hlen'⟩⟩ := hmap.aligned other hother
  simp only [mem_pagesFrom, hlen, hlen',
    Nat.mul_div_cancel_left _ (show 0 < PAGE_SIZE by decide)] at hpage hpage'
  obtain ⟨idx, hidx, rfl⟩ := hpage
  obtain ⟨idx', hidx', hsame⟩ := hpage'
  simp only [hlen, hlen', show PAGE_SIZE = 4096 from rfl] at hdisj hsame
  omega

theorem range_partition (numbered : PageRange × ℕ) :
    (rangeBlocks numbered).flatMap (fun block ↦ pagesFrom block.2 (2 ^ MAX_ORDER)) ++
        spareOf numbered.1 ~ pagesFrom numbered.1.startAddress numbered.1.pages := by
  have hrounds : ∀ rounds, ((range rounds).map fun round ↦
        (numbered.2, numbered.1.startAddress + round * 2 ^ MAX_ORDER * PAGE_SIZE)).flatMap
          (fun block ↦ pagesFrom block.2 (2 ^ MAX_ORDER)) =
      pagesFrom numbered.1.startAddress (rounds * 2 ^ MAX_ORDER) := by
    intro rounds
    induction rounds with
    | zero => simp [pagesFrom]
    | succ rounds ih =>
      rw [range_succ, map_append, flatMap_append, ih, map_singleton,
        flatMap_singleton, Nat.succ_mul, pagesFrom_add]
  let whole := numbered.1.pages / 2 ^ MAX_ORDER * 2 ^ MAX_ORDER
  have hspare : spareOf numbered.1 ~
      pagesFrom (numbered.1.startAddress + whole * PAGE_SIZE) (numbered.1.pages - whole) := by
    refine (reverse_perm _).trans (.of_eq ?_)
    rw [range'_eq_map_range, map_map, pagesFrom]
    refine map_congr_left fun page _ ↦ ?_
    simp only [comp_apply, whole]
    ring
  have hwhole : whole + (numbered.1.pages - whole) = numbered.1.pages :=
    Nat.add_sub_cancel' (Nat.div_mul_le_self ..)
  rw [rangeBlocks, hrounds]
  refine (hspare.append_left _).trans (.of_eq ?_)
  rw [← pagesFrom_add, hwhole]

theorem blocksOf_partition (hperm : ranges ~ collectRanges entries) :
    (blocksOf ranges).flatMap (fun block ↦ pagesFrom block.2 (2 ^ MAX_ORDER)) ++
        ranges.zipIdx.flatMap (fun one ↦ spareOf one.1) ~ usablePages entries := by
  rw [flatMap_assoc]
  calc _ ~ ranges.zipIdx.flatMap fun one ↦
          (rangeBlocks one).flatMap (fun block ↦ pagesFrom block.2 (2 ^ MAX_ORDER)) ++
            spareOf one.1 := flatMap_append_perm ..
    _ ~ ranges.zipIdx.flatMap fun one ↦ pagesFrom one.1.startAddress one.1.pages :=
        .flatMap_left _ fun one _ ↦ range_partition one
    _ = ranges.flatMap fun range ↦ pagesFrom range.startAddress range.pages := by
        rw [← flatMap_map Prod.fst (fun range : PageRange ↦
          pagesFrom range.startAddress range.pages), zipIdx_map_fst]
    _ ~ (collectRanges entries).flatMap fun range ↦ pagesFrom range.startAddress range.pages :=
        hperm.flatMap_right _
    _ = usablePages entries := by rw [collectRanges, flatMap_map, usablePages]

theorem CutMade.unfiled_header {made : List (ℕ × ℕ)} (hmade : CutMade cut made)
    (lists : NodeStore) {pos : ℕ} (hblock : made[pos]? = some block) :
    MadeHeader block ((unfiledState cut lists).blocks (descriptor pos)) := by
  have hlt := (List.getElem?_eq_some_iff.mp hblock).1
  have hbefore : ¬ (descriptor cut.index ≤ descriptor pos ∧
      descriptor pos < descriptor STATIC_POOL_SIZE) := by
    rw [hmade.index]
    rintro ⟨h, -⟩
    exact absurd (Nat.le_of_succ_le_succ h) (not_le.mpr hlt)
  simp only [unfiledState, if_neg hbefore]
  exact hmade.header pos block hblock

/-- The blocks that a usable range is cut into have room. -/
def CutsRoom (room : ℕ → ℕ → Prop) (entries : List MemmapEntry) : Prop :=
  ∀ entry ∈ entries.filter (·.type == .usable), ∀ round,
    (round + 1) * 2 ^ MAX_ORDER ≤ entry.length / PAGE_SIZE →
      room (entry.base + round * 2 ^ MAX_ORDER * PAGE_SIZE) (2 ^ MAX_ORDER)

theorem WellFormedMap.cutsRoom (hmap : WellFormedMap entries) :
    CutsRoom (Within entries) entries := by
  intro entry hentry round hfits
  have hpages := Nat.div_mul_cancel (hmap.aligned entry hentry).2
  refine ⟨entry, hentry, Nat.le_add_right .., ?_⟩
  calc entry.base + round * 2 ^ MAX_ORDER * PAGE_SIZE + 2 ^ MAX_ORDER * PAGE_SIZE
      = entry.base + (round + 1) * 2 ^ MAX_ORDER * PAGE_SIZE := by ring
    _ ≤ entry.base + entry.length / PAGE_SIZE * PAGE_SIZE :=
        Nat.add_le_add_left (Nat.mul_le_mul_right _ hfits) _
    _ = entry.base + entry.length := by rw [hpages]

section

variable (hmade : CutMade cut (blocksOf ranges))
include hmade

theorem CutMade.unfiled
    (hblocks : ∀ block ∈ blocksOf ranges, PAGE_SIZE ∣ block.2 ∧ fits block.2 MAX_ORDER)
    (lists : NodeStore) : Unfiled fits (unfiledState cut lists) (blocksOf ranges).length where
  bound := hmade.bound
  header block hpos hle := by
    obtain ⟨position, rfl⟩ : ∃ position, block = descriptor position :=
      ⟨block - 1, (Nat.sub_add_cancel hpos).symm⟩
    have hlt : position < (blocksOf ranges).length := hle
    obtain ⟨haligned, hfits⟩ := hblocks _ (getElem_mem hlt)
    exact ⟨_, _, hmade.unfiled_header lists (getElem?_eq_getElem hlt), haligned, hfits⟩
  unused := by rw [← hmade.index]; rfl
  rest block hlow hhigh := by
    have hinside : descriptor cut.index ≤ block ∧ block < descriptor STATIC_POOL_SIZE := by
      rw [hmade.index]
      exact ⟨hlow, Nat.lt_succ_of_le hhigh⟩
    simp only [unfiledState, if_pos hinside]
    exact ⟨rfl, rfl⟩

theorem unfiled_unfiledState (hmap : WellFormedMap entries)
    (hroom : CutsRoom room entries) (hperm : ranges ~ collectRanges entries) (lists : NodeStore) :
    Unfiled (Fitting room) (unfiledState cut lists) (blocksOf ranges).length := by
  apply hmade.unfiled
  intro block hblock
  obtain ⟨⟨range, num⟩, hrange, hblock⟩ := mem_flatMap.mp hblock
  obtain ⟨round, hround, rfl⟩ := mem_map.mp hblock
  have hmemRange : range ∈ collectRanges entries :=
    hperm.mem_iff.mp (fst_mem_of_mem_zipIdx hrange)
  obtain ⟨entry, hentry, rfl⟩ := mem_map.mp hmemRange
  have hfits : (round + 1) * 2 ^ MAX_ORDER ≤ entry.length / PAGE_SIZE :=
    (Nat.mul_le_mul_right _ (mem_range.mp hround)).trans (Nat.div_mul_le_self ..)
  exact ⟨Nat.dvd_add (hmap.aligned entry hentry).1 (Nat.dvd_mul_left ..),
    hroom entry hentry round hfits⟩

def filedPages (state : State) : List (ℕ × ℕ) :=
  (allFiled state).flatMap fun block ↦ zonedPages (state.blocks block)

theorem Filing.pages
    (hfiling : Filing userSpan (unfiledState cut lists) state (blocksOf ranges).length) :
    (range' 1 (blocksOf ranges).length).flatMap (fun block ↦
        pagesFrom (state.blocks block).startAddress (2 ^ (state.blocks block).order)) =
      (blocksOf ranges).flatMap fun block ↦ pagesFrom block.2 (2 ^ MAX_ORDER) := by
  refine congrArg flatten (ext_getElem (by simp) fun pos hlow hhigh ↦ ?_)
  have hlt : pos < (blocksOf ranges).length := by simpa using hhigh
  have hhdr := hmade.unfiled_header lists (getElem?_eq_getElem hlt)
  have hfiled : 0 < pos + 1 ∧ pos + 1 ≤ (blocksOf ranges).length := by omega
  simp only [getElem_map, getElem_range', one_mul, add_comm 1 pos,
    hfiling.blocks, if_pos hfiled]
  rw [descriptor] at hhdr
  rw [hhdr.start, hhdr.order]

theorem Filing.nodup_filedPages (hmap : WellFormedMap entries)
    (hperm : ranges ~ collectRanges entries)
    (hfiling : Filing userSpan (unfiledState cut lists) state (blocksOf ranges).length) :
    ((filedPages state).map Prod.snd).Nodup := by
  have haddresses : ((filedPages state).map Prod.snd).map (· * PAGE_SIZE) ~
      (blocksOf ranges).flatMap fun block ↦ pagesFrom block.2 (2 ^ MAX_ORDER) := by
    rw [← hfiling.pages hmade, filedPages, map_flatMap, map_flatMap]
    refine (hfiling.allFiled_perm.flatMap_right _).trans (.of_eq (flatMap_congr ?_))
    intro (block : ℕ) hblock
    have hrange : 0 < block ∧ block ≤ (blocksOf ranges).length := by
      have := mem_range'_1.mp hblock
      omega
    obtain ⟨num, start, hhdr, haligned, -⟩ :=
      (unfiled_unfiledState hmade hmap hmap.cutsRoom hperm lists).header block hrange.1 hrange.2
    have hstart : (state.blocks block).startAddress = start := by
      rw [hfiling.blocks, if_pos hrange]
      exact hhdr.start
    rw [← map_range'_pages (hstart ▸ haligned), zonedPages, map_map, map_map]
    rfl
  have hnodup := ((blocksOf_partition hperm).nodup_iff.mpr hmap.nodup_usablePages).of_append_left
  exact (haddresses.nodup_iff.mpr hnodup).of_map _

/-- What `phys_init` has done when it returns: the ranges were sorted and cut, and all blocks were
filed. Only the hash table is set up afterwards. -/
structure Booted (pool : List Ptr) (entries : List MemmapEntry) (ranges : List PageRange)
    (cut : Cut) (lists : NodeStore) (filed state : State) : Prop where
  sorted : ranges ~ collectRanges entries
  cutAll : cutRanges ranges = some cut
  made : CutMade cut (blocksOf ranges)
  fileAll : (range ranges.length).foldlM
    (fun filing number ↦
      fileRange (userSpanSize (highestAddress entries)) number STATIC_POOL_SIZE filing)
    (unfiledState cut lists, 0) = some (filed, (blocksOf ranges).length)
  filing : Filing (userSpanSize (highestAddress entries)) (unfiledState cut lists) filed
    (blocksOf ranges).length
  table : ∃ table, state = { filed with lists := lists, usedBuddyHashTable := table } ∧
    Tabled pool state []

theorem CutMade.filing (hlen : ranges.length ≤ PAGE_RANGE_SIZE) (lists : NodeStore)
    (userSpan : ℕ) :
    ∃ filed, (range ranges.length).foldlM
        (fun filing number ↦ fileRange userSpan number STATIC_POOL_SIZE filing)
        (unfiledState cut lists, 0) = some (filed, (blocksOf ranges).length) ∧
      Filing userSpan (unfiledState cut lists) filed (blocksOf ranges).length := by
  have hstart : Filing userSpan (unfiledState cut lists) (unfiledState cut lists) 0 := by
    refine ⟨fun block ↦ ?_, fun zone key ↦ ?_, rfl, rfl, rfl⟩
    · rw [if_neg]
      rintro ⟨h, h'⟩
      exact absurd h' (not_le.mpr h)
    · split <;> rfl
  have hend : ((unfiledState cut lists).blocks (descriptor (blocksOf ranges).length)).zone =
      UNUSED := by
    have hrest : descriptor cut.index ≤ descriptor (blocksOf ranges).length ∧
        descriptor (blocksOf ranges).length < descriptor STATIC_POOL_SIZE := by
      rw [hmade.index]
      exact ⟨le_rfl, Nat.succ_lt_succ hmade.bound⟩
    simp only [unfiledState, if_pos hrest]
    rfl
  obtain ⟨filed, hfile, hfiling⟩ := foldlM_fileRange hmade.bound
    (fun pos hposition ↦
      (hmade.unfiled_header lists (getElem?_eq_getElem hposition)).order) hend ranges 0 []
    (by rw [zero_add]; exact hlen.trans (by decide))
    (fun pos block hblock ↦ (hmade.unfiled_header lists hblock).zone) rfl hstart
  rw [length_nil, ← range_eq_range'] at hfile
  exact ⟨filed, hfile, hfiling⟩

end

/-- What `phys_init` has done when it returns, for any map. -/
structure Initialised (pool : List Ptr) (entries : List MemmapEntry) (ranges : List PageRange)
    (cut : Cut) (before lists : NodeStore) (filed state : State) : Prop where
  accepts : Accepts entries
  init : ∃ list, SinglyLinkedList.init pool before false = some (lists, list)
  sorted : ranges ~ collectRanges entries
  cutAll : cutRanges ranges = some cut
  makes : Makes cut (blocksOf (ranges.map PageRange.rounded),
    ranges.zipIdx.reverse.flatMap fun one ↦ spareOf one.1)
  fileAll : (range ranges.length).foldlM
    (fun filing number ↦
      fileRange (userSpanSize (highestAddress entries)) number STATIC_POOL_SIZE filing)
    (unfiledState cut lists, 0) = some (filed, (blocksOf (ranges.map PageRange.rounded)).length)
  filing : Filing (userSpanSize (highestAddress entries)) (unfiledState cut lists) filed
    (blocksOf (ranges.map PageRange.rounded)).length
  table : ∃ lists' table, staticHashTableInit pool filed.lists filed.usedBuddyHashTable
      HASH_TABLE_STATIC_POOL_SIZE = some (lists', table) ∧
    state = { filed with lists := lists', usedBuddyHashTable := table }

theorem physInit_returns (hready : Ready pool lists) (haccepts : Accepts entries) :
    ∃ state, physInit pool lists entries = some state := by
  obtain ⟨lists', free, hinit, hpooled, -, hsetup⟩ := init_pooled hready
  obtain ⟨ranges, hsort, hperm⟩ := bubbleSort_perm PageRange.pages (collectRanges entries)
  have hfits : (blocksOf (ranges.map PageRange.rounded)).length < STATIC_POOL_SIZE := by
    rw [length_blocksOf, map_map]
    exact (hperm.map _).sum_nat.trans_lt haccepts.blocks
  obtain ⟨cut, hcut, hmade, -⟩ := (cutRanges_yields ranges).exists_of_fits hfits
  obtain ⟨filed, hfile, hfiling⟩ := hmade.filing
    (by rw [length_map, hperm.length_eq]; exact haccepts.ranges) lists'
    (userSpanSize (highestAddress entries))
  rw [length_map] at hfile
  have hlists : filed.lists = lists' := hfiling.lists
  obtain ⟨table, htable, -⟩ := staticHashTableInit_spec hpooled hsetup filed.usedBuddyHashTable
  have hbounds : ¬ ((collectRanges entries).length = 0 ∨
      PAGE_RANGE_SIZE < (collectRanges entries).length) :=
    not_or.mpr ⟨haccepts.nonempty, not_lt.mpr haccepts.ranges⟩
  simp only [physInit, hinit, Option.bind_eq_bind, Option.bind_some, if_neg hbounds, hsort, hcut,
    hfile, hlists, htable]
  exact ⟨_, rfl⟩

section

variable (hready : Ready pool lists) (hmap : WellFormedMap entries)
  (hinit : physInit pool lists entries = some state)
include hinit

theorem physInit_initialised :
    ∃ ranges cut lists' filed, Initialised pool entries ranges cut lists lists' filed state := by
  obtain ⟨⟨lists', list⟩, hlists, hinit⟩ := Option.bind_eq_some_iff.mp hinit
  simp only at hinit
  split at hinit
  · cases hinit
  rename_i hbounds
  obtain ⟨hnonempty, hranges⟩ := not_or.mp hbounds
  obtain ⟨ranges, hsort, hinit⟩ := Option.bind_eq_some_iff.mp hinit
  obtain ⟨cut, hcut, hinit⟩ := Option.bind_eq_some_iff.mp hinit
  obtain ⟨⟨filed, count⟩, hfile, hinit⟩ := Option.bind_eq_some_iff.mp hinit
  obtain ⟨⟨lists'', table⟩, htable, hinit⟩ := Option.bind_eq_some_iff.mp hinit
  cases hinit
  obtain ⟨sorted, hsorted, hperm⟩ := bubbleSort_perm PageRange.pages (collectRanges entries)
  obtain rfl : sorted = ranges := Option.some.inj (hsorted.symm.trans hsort)
  have hmakes := cutRanges_yields sorted
  rw [hcut] at hmakes
  obtain ⟨filed', hfile', hfiling⟩ := hmakes.1.filing
    (by rw [length_map, hperm.length_eq]; exact not_lt.mp hranges) lists'
    (userSpanSize (highestAddress entries))
  rw [length_map] at hfile'
  cases hfile.symm.trans hfile'
  have hblocks := hmakes.1.bound
  rw [length_blocksOf, map_map] at hblocks
  exact ⟨sorted, cut, lists', filed, ⟨hnonempty, not_lt.mp hranges,
    (hperm.map _).sum_nat ▸ hblocks⟩, ⟨list, hlists⟩, hperm, hcut, hmakes, hfile, hfiling, lists'',
    table, htable, rfl⟩

/-- Where the blocks are does not matter for how they are filed: whatever the map, every descriptor
has its place and every block is filed under its own zone and order. -/
theorem physInit_filed :
    ∃ pages, Accounted (fun _ _ ↦ True) pages state [] ∧ state.kallocLive = [] := by
  obtain ⟨ranges, cut, lists', filed, hinitialised⟩ := physInit_initialised hinit
  obtain ⟨lists'', table, -, rfl⟩ := hinitialised.table
  have hunfiled : Unfiled (fun _ _ ↦ True) (unfiledState cut lists')
      (blocksOf (ranges.map PageRange.rounded)).length := by
    refine hinitialised.makes.1.unfiled (fun block hblock ↦ ?_) lists'
    obtain ⟨⟨range, num⟩, hrange, hblock⟩ := mem_flatMap.mp hblock
    obtain ⟨round, -, rfl⟩ := mem_map.mp hblock
    obtain ⟨original, -, rfl⟩ := mem_map.mp (fst_mem_of_mem_zipIdx hrange)
    exact ⟨Nat.dvd_add (Nat.dvd_mul_left ..) (Nat.dvd_mul_left ..), trivial⟩
  have hacc := hinitialised.filing.accounted hunfiled
  exact ⟨_, hacc.recount rfl rfl rfl rfl, hinitialised.filing.kalloc⟩

include hready hmap

theorem physInit_booted :
    ∃ ranges cut lists' filed, Booted pool entries ranges cut lists' filed state := by
  obtain ⟨ranges, cut, lists', filed, hinitialised⟩ := physInit_initialised hinit
  have hrounded : ranges.map PageRange.rounded = ranges := by
    refine (map_congr_left fun range hrange ↦ ?_).trans (map_id _)
    obtain ⟨entry, hentry, rfl⟩ := mem_map.mp (hinitialised.sorted.mem_iff.mp hrange)
    simp [PageRange.rounded, Nat.div_mul_cancel (hmap.aligned entry hentry).1]
  obtain ⟨lists₁, free, hlists, hpooled, -, hsetup⟩ := init_pooled hready
  obtain ⟨list, hlists'⟩ := hinitialised.init
  cases hlists.symm.trans hlists'
  have hfiling := hinitialised.filing
  obtain ⟨lists₂, table, htable, rfl⟩ := hinitialised.table
  obtain ⟨table', htable', hholds⟩ :=
    staticHashTableInit_spec hpooled hsetup filed.usedBuddyHashTable
  rw [show filed.lists = lists' from hfiling.lists] at htable
  cases htable.symm.trans htable'
  have hfileAll := hinitialised.fileAll
  have hmade := hinitialised.makes.1
  rw [hrounded] at hfiling hfileAll hmade
  exact ⟨ranges, cut, lists', filed, hinitialised.sorted, hinitialised.cutAll, hmade, hfileAll,
    hfiling, table, rfl, fun _ ↦ [], hholds, fun _ _ ↦ .refl _⟩

/-- **The accounts after `phys_init`.** Every block is filed in the tree of its zone and has room,
no page is filed twice, and the table of used blocks is empty. -/
theorem physInit_accounted (hroom : CutsRoom room entries) :
    Accounted (Fitting room) (filedPages state) state [] ∧ Tabled pool state [] ∧
      ((filedPages state).map Prod.snd).Nodup := by
  obtain ⟨ranges, cut, lists', filed, hbooted⟩ := physInit_booted hready hmap hinit
  obtain ⟨table, rfl, htabled⟩ := hbooted.table
  have hacc := hbooted.filing.accounted
    (unfiled_unfiledState hbooted.made hmap hroom hbooted.sorted lists')
  have hnodup := hbooted.filing.nodup_filedPages hbooted.made hmap hbooted.sorted
  exact ⟨hacc.recount rfl rfl rfl rfl, htabled, hnodup⟩

theorem physInit_spec :
    Accounted (Fitting (Within entries)) (filedPages state) state [] ∧ Tabled pool state [] ∧
      ((filedPages state).map Prod.snd).Nodup :=
  physInit_accounted hready hmap hinit hmap.cutsRoom

end

end DionysOS.Memory.Pmm
