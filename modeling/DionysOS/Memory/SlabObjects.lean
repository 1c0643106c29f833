import DionysOS.Memory.Slab
import Mathlib.Data.List.Pairwise
import Mathlib.Tactic.Ring

/-!
# Slab objects never overlap

The entries of a region are its *slots*. Slots of one region are a multiple of the entry size
apart, and slots of regions that are apart are apart. The invariant of a slab says that the free
list and the objects handed out are different slots of the regions obtained so far; the current
bounds of the slab do not occur in it, since they only decide which freed objects are lost.

The free list survives what the clients write, because a write to an object touches no word of the
list: the word of a free slot lies in that slot.
-/

namespace DionysOS.Memory.Slab

open Option Prod

open DataStructures Foundation ByteRecords LinkedChain PartialMachine List
open Pmm (PAGE_SIZE)

def slots (entrySize : ℕ) (region : Region) : List ℕ :=
  (range (entryCount entrySize region.pages)).map fun index ↦
    region.start + headerOffset entrySize + index * entrySize

def ObjectsApart (entrySize : ℕ) (object other : ℕ) : Prop :=
  object + entrySize ≤ other ∨ other + entrySize ≤ object

variable {entrySize pages : ℕ} {region other : Region} {object address addr self : ℕ}
  {objects free : List ℕ} {memory memory' : Bytes} {state : State}

theorem le_headerOffset (hpos : 0 < entrySize) : WORD ≤ headerOffset entrySize := by
  have hdivision := Nat.div_add_mod (WORD + entrySize) entrySize
  have hremainder := Nat.mod_lt (WORD + entrySize) hpos
  rw [headerOffset, mul_comm]
  omega

theorem slot_inside (hpos : 0 < entrySize) (hslot : object ∈ slots entrySize region) :
    region.start + WORD ≤ object ∧ object + entrySize ≤ region.start + region.size := by
  obtain ⟨idx, hidx, rfl⟩ := mem_map.mp hslot
  have hhdr := le_headerOffset hpos
  have hlast : (idx + 1) * entrySize ≤ region.pages * PAGE_SIZE - headerOffset entrySize :=
    (Nat.le_div_iff_mul_le hpos).mp (mem_range.mp hidx)
  rw [add_mul, one_mul] at hlast
  simp only [Region.size]
  omega

theorem slots_apart_self (hobj : object ∈ slots entrySize region)
    (haddr : address ∈ slots entrySize region) (hdiffer : object ≠ address) :
    ObjectsApart entrySize object address := by
  obtain ⟨first, -, rfl⟩ := mem_map.mp hobj
  obtain ⟨second, -, rfl⟩ := mem_map.mp haddr
  have hstep : ∀ {low high : ℕ}, low < high → low * entrySize + entrySize ≤ high * entrySize := by
    intro low high hlow
    have hle := Nat.mul_le_mul_right entrySize (Nat.succ_le_of_lt hlow)
    rwa [Nat.succ_mul] at hle
  rcases lt_trichotomy first second with hlt | rfl | hgt
  · have := hstep hlt
    exact .inl (by omega)
  · exact absurd rfl hdiffer
  · have := hstep hgt
    exact .inr (by omega)

theorem slots_apart (hpos : 0 < entrySize) (hregions : region.Apart other)
    (hobj : object ∈ slots entrySize region) (haddr : address ∈ slots entrySize other) :
    ObjectsApart entrySize object address := by
  have hinside := slot_inside hpos hobj
  have hinside' := slot_inside hpos haddr
  rcases hregions with h | h
  · exact .inl (by omega)
  · exact .inr (by omega)

def pool (entrySize : ℕ) (regions : List Region) : List ℕ := regions.flatMap (slots entrySize)

instance : Std.Symm Region.Apart := ⟨fun _ _ h ↦ Or.symm h⟩

theorem pool_apart (hpos : 0 < entrySize) {regions : List Region}
    (hregions : regions.Pairwise Region.Apart) (hobj : object ∈ pool entrySize regions)
    (haddr : address ∈ pool entrySize regions) (hdiffer : object ≠ address) :
    ObjectsApart entrySize object address := by
  obtain ⟨region, hreg, hobj⟩ := mem_flatMap.mp hobj
  obtain ⟨other, hother, haddr⟩ := mem_flatMap.mp haddr
  by_cases hsame : region = other
  · subst hsame
    exact slots_apart_self hobj haddr hdiffer
  · exact slots_apart hpos (hregions.forall hreg hother hsame) hobj haddr

/-- The free list is threaded through `free` in memory. -/
def Threaded (memory : Bytes) (firstFree : ℕ) (free : List ℕ) : Prop :=
  Segment (fun address ↦ load memory WORD address) firstFree free NULL

theorem load_store_word {value : ℕ} (hvalue : value < 2 ^ 64) (memory : Bytes) (addr : ℕ) :
    load (store memory WORD addr value) WORD addr = value :=
  load_store_self addr (by norm_num [WORD]; omega)

theorem Threaded.congr {firstFree : ℕ} (hthreaded : Threaded memory firstFree free)
    (hsame : ∀ entry ∈ free, load memory' WORD entry = load memory WORD entry) :
    Threaded memory' firstFree free :=
  Segment.congr hthreaded hsame

theorem arrayCell_eq (hmul : WORD ∣ entrySize) (array idx : ℕ) :
    arrayCell array (entrySize / WORD) idx = array + idx * entrySize := by
  obtain ⟨factor, rfl⟩ := hmul
  rw [arrayCell, Nat.mul_div_cancel_left _ (by decide)]
  ring

theorem arrayCell_succ (array factor idx : ℕ) :
    arrayCell array factor (idx + 1) = arrayCell array factor idx + WORD * factor := by
  simp only [arrayCell]
  ring

theorem arrayCell_add (array factor idx count : ℕ) :
    arrayCell array factor (idx + count) =
      arrayCell array factor idx + WORD * (count * factor) := by
  simp only [arrayCell]
  ring

theorem linkEntries_outside (array : ℕ) {factor : ℕ} (hfactor : 0 < factor) :
    ∀ (count idx : ℕ) (memory : Bytes) {pos : ℕ},
      pos < arrayCell array factor idx ∨ arrayCell array factor (idx + count) ≤ pos →
      linkEntries array factor count idx memory pos = memory pos
  | 0, _, _, _, _ => rfl
  | count + 1, idx, memory, pos, hpos => by
      have hnext := arrayCell_succ array factor idx
      have hword : WORD ≤ WORD * factor := Nat.le_mul_of_pos_right _ hfactor
      have hlast := arrayCell_add array factor (idx + 1) count
      rw [show idx + (count + 1) = idx + 1 + count by omega] at hpos
      rw [linkEntries, linkEntries_outside array hfactor count (idx + 1) _ (by omega),
        store_of_outside _ (by omega)]

theorem load_linkEntries {array factor : ℕ} (hfactor : 0 < factor) :
    ∀ (count first : ℕ) (memory : Bytes), arrayCell array factor (first + count) < 2 ^ 64 →
      ∀ idx, first ≤ idx → idx < first + count →
        load (linkEntries array factor count first memory) WORD (arrayCell array factor idx) =
          arrayCell array factor (idx + 1)
  | 0, _, _, _, _, _, _ => by omega
  | count + 1, first, memory, hbound, idx, hfirst, hidx => by
      have hcells : first + (count + 1) = first + 1 + count := by omega
      rw [hcells] at hbound
      rw [linkEntries]
      rcases eq_or_lt_of_le hfirst with rfl | hfirst
      · have hnext := arrayCell_succ array factor first
        have hlast := arrayCell_add array factor (first + 1) count
        have hword : WORD ≤ WORD * factor := Nat.le_mul_of_pos_right _ hfactor
        rw [load_congr fun pos hpos ↦ linkEntries_outside array hfactor count (first + 1) _
          (show arrayCell array factor first + pos < _ ∨ _ by omega)]
        exact load_store_word (by omega) _ _
      · exact load_linkEntries hfactor count (first + 1) _ hbound idx hfirst (by omega)

variable {slab : Slab} {start : ℕ}

theorem heapCreateSlab_spec (hmul : WORD ∣ entrySize)
    (hroom : start + pages * PAGE_SIZE ≤ 2 ^ 64)
    (hcreate : heapCreateSlab self entrySize pages start memory = some (memory', slab)) :
    0 < entrySize ∧ slab.entrySize = entrySize ∧
      Threaded memory' slab.firstFree (slots entrySize ⟨start, pages⟩) := by
  simp only [heapCreateSlab] at hcreate
  obtain ⟨hentries, hcreate⟩ := ite_none_left_eq_some.mp hcreate
  obtain ⟨hpos, -⟩ : 0 < entrySize ∧ 0 < entryCount entrySize pages := by omega
  cases hcreate
  refine ⟨hpos, rfl, ?_⟩
  obtain ⟨last, hlast⟩ : ∃ last, entryCount entrySize pages = last + 1 :=
    ⟨entryCount entrySize pages - 1, by omega⟩
  have hfactor : 0 < entrySize / WORD :=
    Nat.div_pos (Nat.le_of_dvd hpos hmul) (by decide)
  have hinside := (@slot_inside _ ⟨start, pages⟩ _ hpos
    (mem_map.mpr ⟨last, by simp [hlast], rfl⟩)).2
  have hcell := arrayCell_eq hmul (start + headerOffset entrySize)
  have hbound : arrayCell (start + headerOffset entrySize) (entrySize / WORD) (0 + last) <
      2 ^ 64 := by
    rw [Nat.zero_add, hcell]
    simp only [Region.size] at hinside
    omega
  simp only [Threaded, slots, hlast, range_eq_range', ← hcell, Nat.add_sub_cancel]
  refine segment_map_range' last 0 (by simp [arrayCell]) (fun idx _ hidx ↦ ?_) ?_
  · have hlater := arrayCell_add (start + headerOffset entrySize) (entrySize / WORD) (idx + 1)
      (last - (idx + 1))
    have hnext := arrayCell_succ (start + headerOffset entrySize) (entrySize / WORD) idx
    have hword : WORD ≤ WORD * (entrySize / WORD) := Nat.le_mul_of_pos_right _ hfactor
    rw [show idx + 1 + (last - (idx + 1)) = last by omega] at hlater
    rw [load_store_of_apart _ (.inr (by omega))]
    exact load_linkEntries hfactor last 0 _ hbound idx (Nat.zero_le _) hidx
  · rw [Nat.zero_add]
    exact load_store_word (by norm_num) _ _

/-- The invariant of a slab: the free list and the objects handed out are different slots of the
regions obtained. -/
structure Valid (entrySize : ℕ) (state : State) (free : List ℕ) : Prop where
  size : state.slab.entrySize = entrySize
  threaded : Threaded state.memory state.slab.firstFree free
  nodup : (free ++ state.live).Nodup
  inPool : ∀ object ∈ free ++ state.live, object ∈ pool entrySize state.regions
  regionsApart : state.regions.Pairwise Region.Apart
  rooms : ∀ region ∈ state.regions, WORD ≤ region.size ∧ region.start + region.size ≤ 2 ^ 64

/-- What the environment promises about an operation: `phys_alloc` returns addressable pages apart
from all earlier ones, and a free names an object that is handed out. -/
def Promised (state : State) : Operation → Prop
  | .allocate region => state.slab.firstFree = NULL →
      region + DEFAULT_SLAB_SIZE_PAGES * PAGE_SIZE ≤ 2 ^ 64 ∧
        ∀ earlier ∈ state.regions, Region.Apart ⟨region, DEFAULT_SLAB_SIZE_PAGES⟩ earlier
  | .free address => address ∈ state.live
  | .write _ => True

theorem heapCreateSlab_isSome (start : ℕ) :
    (heapCreateSlab self entrySize pages start memory).isSome ↔
      0 < entrySize ∧ 0 < entryCount entrySize pages := by
  simp only [heapCreateSlab]
  split <;> simp <;> omega

instance (state : State) (operation : Operation) : Decidable (Promised state operation) := by
  cases operation <;> unfold Promised <;> infer_instance

section Steps

variable (hpos : 0 < entrySize) (hmul : WORD ∣ entrySize)

include hpos

section

variable (hvalid : Valid entrySize state free)
include hvalid

theorem Valid.apart (hobj : object ∈ free ++ state.live)
    (haddr : address ∈ free ++ state.live) (hdiffer : object ≠ address) :
    ObjectsApart entrySize object address :=
  pool_apart hpos hvalid.regionsApart (hvalid.inPool object hobj)
    (hvalid.inPool address haddr) hdiffer

theorem Valid.apart_live (hobj : object ∈ free) (haddr : addr ∈ state.live) :
    object + entrySize ≤ addr ∨ addr + entrySize ≤ object :=
  hvalid.apart hpos (mem_append_left _ hobj) (mem_append_right _ haddr) fun h ↦
    (nodup_append.mp hvalid.nodup).2.2 object hobj addr haddr h

theorem Valid.bounds (hobj : object ∈ free ++ state.live) : object ≠ NULL ∧ object < 2 ^ 64 := by
  obtain ⟨region, hreg, hslot⟩ := mem_flatMap.mp (hvalid.inPool object hobj)
  have hinside := slot_inside hpos hslot
  have hroom := (hvalid.rooms region hreg).2
  simp only [WORD, NULL] at *
  omega

theorem Valid.firstFree_lt :
    state.slab.firstFree < 2 ^ 64 := by
  have hthreaded := hvalid.threaded
  cases free with
  | nil =>
    rw [show state.slab.firstFree = NULL from hthreaded]
    norm_num
  | cons object rest =>
    rw [hthreaded.head_eq]
    exact (hvalid.bounds hpos (by simp)).2

theorem Valid.firstFree_eq_null_iff :
    state.slab.firstFree = NULL ↔ free = [] := by
  have hthreaded := hvalid.threaded
  cases free with
  | nil => exact iff_of_true hthreaded rfl
  | cons object rest =>
    rw [hthreaded.head_eq]
    exact iff_of_false (hvalid.bounds hpos (by simp)).1 (by simp)

end

theorem slots_nodup (region : Region) : (slots entrySize region).Nodup := by
  refine Nodup.map (fun first second hsame ↦ ?_) nodup_range
  exact Nat.eq_of_mul_eq_mul_right hpos (add_left_cancel hsame)

include hmul

omit hpos hmul in
theorem slots_ne_nil
    (hcreate : heapCreateSlab self entrySize pages start memory = some (memory', slab)) :
    slots entrySize ⟨start, pages⟩ ≠ [] := by
  have hcount := ((heapCreateSlab_isSome start).mp (isSome_of_eq_some hcreate)).2
  simpa [slots] using hcount.ne'

theorem WORD_le : WORD ≤ entrySize := Nat.le_of_dvd hpos hmul

theorem Valid.grow (hvalid : Valid entrySize state []) (hroom : start + pages * PAGE_SIZE ≤ 2 ^ 64)
    (hapart : ∀ earlier ∈ state.regions, Region.Apart ⟨start, pages⟩ earlier)
    (hcreate : heapCreateSlab self entrySize pages start state.memory = some (memory', slab)) :
    Valid entrySize ⟨memory', slab, state.live, ⟨start, pages⟩ :: state.regions⟩
      (slots entrySize ⟨start, pages⟩) := by
  obtain ⟨-, hsize, hthreaded⟩ := heapCreateSlab_spec hmul hroom hcreate
  refine ⟨hsize, hthreaded, ?_, ?_, pairwise_cons.mpr ⟨hapart, hvalid.regionsApart⟩, ?_⟩
  · refine nodup_append.mpr ⟨slots_nodup hpos _, hvalid.nodup, ?_⟩
    rintro object hnew _ hlive rfl
    obtain ⟨region, hreg, hold⟩ := mem_flatMap.mp (hvalid.inPool object hlive)
    have := slots_apart hpos (hapart region hreg) hnew hold
    simp only [ObjectsApart] at this
    omega
  · intro object hobj
    rcases mem_append.mp hobj with hnew | hlive
    · exact mem_flatMap.mpr ⟨_, mem_cons_self, hnew⟩
    · obtain ⟨region, hreg, hold⟩ := mem_flatMap.mp (hvalid.inPool object hlive)
      exact mem_flatMap.mpr ⟨region, mem_cons_of_mem _ hreg, hold⟩
  · intro region hreg
    rcases mem_cons.mp hreg with rfl | hreg
    · have hhdr := le_headerOffset hpos
      have hcount := ((heapCreateSlab_isSome start).mp (isSome_of_eq_some hcreate)).2
      have hmore : headerOffset entrySize < pages * PAGE_SIZE :=
        Nat.lt_of_sub_pos (Nat.pos_of_div_pos hcount)
      exact ⟨by simp only [Region.size]; omega, hroom⟩
    · exact hvalid.rooms region hreg

theorem Valid.pop (hvalid : Valid entrySize state (object :: free)) :
    Valid entrySize ⟨zero state.memory object state.slab.entrySize,
      { state.slab with firstFree := load state.memory WORD object }, object :: state.live,
      state.regions⟩ free := by
  have hword := WORD_le hpos hmul
  have hmoved : (free ++ object :: state.live).Perm (object :: free ++ state.live) :=
    perm_middle
  refine ⟨hvalid.size, ?_, hmoved.nodup_iff.mpr hvalid.nodup, ?_, hvalid.regionsApart, hvalid.rooms⟩
  · refine Threaded.congr hvalid.threaded.2 fun entry hentry ↦ load_zero_of_apart ?_
    have hne : object ≠ entry := by
      rintro rfl
      exact (nodup_cons.mp hvalid.nodup).1 (mem_append_left _ hentry)
    have hapart := hvalid.apart hpos mem_cons_self
      (mem_cons_of_mem _ (mem_append_left _ hentry)) hne
    simp only [ObjectsApart] at hapart
    rw [hvalid.size]
    omega
  · exact fun other hother ↦ hvalid.inPool other (hmoved.mem_iff.mp hother)

variable {next : State}

section

variable (hvalid : Valid entrySize state free)
include hvalid

theorem Valid.push (haddr : addr ∈ state.live) :
    Valid entrySize ⟨store state.memory WORD addr state.slab.firstFree,
      { state.slab with firstFree := addr }, state.live.erase addr, state.regions⟩
      (addr :: free) := by
  have hword := WORD_le hpos hmul
  have hmoved : (addr :: free ++ state.live.erase addr).Perm (free ++ state.live) :=
    perm_middle.symm.trans ((perm_cons_erase haddr).symm.append_left free)
  refine { hvalid with
    threaded := ⟨rfl, ?_⟩
    nodup := hmoved.nodup_iff.mpr hvalid.nodup
    inPool := fun other hother ↦ hvalid.inPool other (hmoved.mem_iff.mp hother) }
  simp only [load_store_word (hvalid.firstFree_lt hpos)]
  refine Threaded.congr hvalid.threaded fun entry hentry ↦ load_store_of_apart _ ?_
  have hapart := hvalid.apart_live hpos hentry haddr
  omega

omit hpos hmul in
theorem Valid.lose (addr : ℕ) :
    Valid entrySize ⟨state.memory, state.slab, state.live.erase addr, state.regions⟩ free := by
  have hsublist : (free ++ state.live.erase addr).Sublist (free ++ state.live) :=
    Sublist.append_left (erase_sublist ..) _
  exact { hvalid with
    nodup := hvalid.nodup.sublist hsublist
    inPool := fun other hother ↦ hvalid.inPool other (hsublist.subset hother) }

theorem Valid.write (bytes : Bytes) :
    Valid entrySize { state with
      memory := fun pos ↦
        if state.InLive pos then bytes pos else state.memory pos } free := by
  have hword := WORD_le hpos hmul
  refine { hvalid with
    threaded := Threaded.congr hvalid.threaded fun entry hentry ↦ ?_ }
  refine load_congr fun idx hidx ↦ if_neg ?_
  rintro ⟨object, hobj, hlow, hhigh⟩
  have hapart := hvalid.apart_live hpos hentry hobj
  rw [hvalid.size] at hhigh
  omega

/-- After the refill there is a free entry, and the free list has become longer by the entries of the
new region. -/
theorem Valid.refill (hprom : Promised state (.allocate start))
    (hrefill : refill self state.slab start state.memory = some (memory', slab)) :
    ∃ object rest, Valid entrySize ⟨memory', slab, state.live, state.regionsAfter start⟩
      (object :: rest) ∧
      (object :: rest).length + (pool entrySize state.regions).length =
        free.length + (pool entrySize (state.regionsAfter start)).length := by
  simp only [Slab.refill] at hrefill
  simp only [State.regionsAfter]
  split at hrefill
  · rename_i hempty
    obtain ⟨hroom, hapart⟩ := hprom hempty
    obtain rfl := (hvalid.firstFree_eq_null_iff hpos).mp hempty
    rw [hvalid.size] at hrefill
    have hgrown := hvalid.grow hpos hmul hroom hapart hrefill
    obtain ⟨object, rest, hslots⟩ := exists_cons_of_ne_nil (slots_ne_nil hrefill)
    rw [if_pos hempty]
    refine ⟨object, rest, hslots ▸ hgrown, ?_⟩
    rw [← hslots, pool, pool, flatMap_cons, length_append, length_nil, zero_add]
  · rename_i hfree
    cases hrefill
    rw [if_neg hfree]
    cases free with
    | nil => exact absurd hvalid.threaded hfree
    | cons object rest => exact ⟨object, rest, hvalid, rfl⟩

/-- An allocation hands out a new object, filled with zeros. It is taken from the free list and the
entries of the region that the slab may have grown by. -/
theorem allocate_spec (hprom : Promised state (.allocate start))
    (hstep : step self state (.allocate start) = some (next, addr)) :
    (∃ free', Valid entrySize next free' ∧
      free'.length + 1 + (pool entrySize state.regions).length =
        free.length + (pool entrySize next.regions).length) ∧
      next.live = addr :: state.live ∧
      ∀ idx < entrySize, next.memory (addr + idx) = 0 := by
  simp only [step, heapAllocateFromSlab, map_eq_some_iff, bind_eq_bind,
    bind_eq_some_iff, some.injEq] at hstep
  obtain ⟨_, ⟨⟨memory', slab⟩, hrefill, rfl⟩, hnext⟩ := hstep
  obtain ⟨rfl, rfl⟩ := mk.inj hnext
  obtain ⟨object, rest, hrefilled, hcount⟩ := hvalid.refill hpos hmul hprom hrefill
  obtain rfl : slab.firstFree = object := hrefilled.threaded.head_eq
  have hsize : slab.entrySize = entrySize := hrefilled.size
  refine ⟨⟨rest, hrefilled.pop hpos hmul, hcount⟩, rfl, fun idx hidx ↦ if_pos ?_⟩
  simp only
  omega

end

theorem step_valid {op : Operation} {out : ℕ} (hvalid : ∃ free, Valid entrySize state free)
    (hprom : Promised state op) (hstep : step self state op = some (next, out)) :
    ∃ free, Valid entrySize next free := by
  obtain ⟨free, hvalid⟩ := hvalid
  cases op with
  | allocate start =>
    obtain ⟨⟨free', hnext, -⟩, -⟩ := allocate_spec hpos hmul hvalid hprom hstep
    exact ⟨free', hnext⟩
  | free addr =>
    have hbounds := hvalid.bounds hpos (mem_append_right _ hprom)
    simp only [step, heapFreeInSlab, if_neg hbounds.1] at hstep
    split at hstep
    · obtain ⟨rfl, -⟩ := mk.inj (some.inj hstep)
      exact ⟨free, hvalid.lose addr⟩
    · obtain ⟨rfl, -⟩ := mk.inj (some.inj hstep)
      exact ⟨addr :: free, hvalid.push hpos hmul hprom⟩
  | write bytes =>
    obtain ⟨rfl, -⟩ := mk.inj (some.inj hstep)
    exact ⟨free, hvalid.write hpos hmul bytes⟩

omit hmul in
theorem step_returns (hcount : 0 < entryCount entrySize DEFAULT_SLAB_SIZE_PAGES)
    (hvalid : Valid entrySize state free) (op : Operation) :
    ∃ next out, step self state op = some (next, out) := by
  cases op with
  | allocate start =>
    have hrefill : ∃ refilled, refill self state.slab start state.memory = some refilled := by
      rw [← isSome_iff_exists, refill]
      split
      · exact (heapCreateSlab_isSome start).mpr (by rw [hvalid.size]; exact ⟨hpos, hcount⟩)
      · rfl
    obtain ⟨refilled, hrefill⟩ := hrefill
    simp [step, heapAllocateFromSlab, hrefill]
  | free addr => exact ⟨_, _, rfl⟩
  | write bytes => exact ⟨_, _, rfl⟩

end Steps

/-- The objects handed out are disjoint ranges inside the regions obtained, clear of the header word
of every region. -/
structure Separate (entrySize : ℕ) (state : State) : Prop where
  disjoint : state.live.Pairwise (ObjectsApart entrySize)
  inside : ∀ object ∈ state.live, ∃ region ∈ state.regions,
    region.start ≤ object ∧ object + entrySize ≤ region.start + region.size
  header : ∀ object ∈ state.live, ∀ region ∈ state.regions,
    region.start + WORD ≤ object ∨ object + entrySize ≤ region.start

section

variable (hpos : 0 < entrySize)
include hpos

theorem Valid.header_apart (hvalid : Valid entrySize state free)
    (hobject : object ∈ free ++ state.live) (hregion : region ∈ state.regions) :
    region.start + WORD ≤ object ∨ object + entrySize ≤ region.start := by
  obtain ⟨own, hown, hslot⟩ := mem_flatMap.mp (hvalid.inPool object hobject)
  have hinside := slot_inside hpos hslot
  by_cases hsame : own = region
  · subst hsame
    exact .inl hinside.1
  · have hapart := hvalid.regionsApart.forall hown hregion hsame
    simp only [Region.Apart] at hapart
    omega

theorem Valid.separate (hvalid : Valid entrySize state free) :
    Separate entrySize state := by
  have hlive : ∀ object ∈ state.live, object ∈ free ++ state.live := fun object hobject ↦
    mem_append_right _ hobject
  refine ⟨?_, fun object hobject ↦ ?_, fun object hobject region hregion ↦
    hvalid.header_apart hpos (hlive object hobject) hregion⟩
  · refine hvalid.nodup.of_append_right.imp_of_mem fun hobject haddr hne ↦ ?_
    exact hvalid.apart hpos (hlive _ hobject) (hlive _ haddr) hne
  · obtain ⟨region, hregion, hslot⟩ := mem_flatMap.mp (hvalid.inPool _ (hlive _ hobject))
    have hinside := slot_inside hpos hslot
    exact ⟨region, hregion, by omega, hinside.2⟩

/-- The state right after `heap_create_slab`. -/
def created (memory : Bytes) (slab : Slab) (start pages : ℕ) : State :=
  ⟨memory, slab, [], [⟨start, pages⟩]⟩

theorem created_valid (hmul : WORD ∣ entrySize) (hroom : start + pages * PAGE_SIZE ≤ 2 ^ 64)
    (hcreate : heapCreateSlab self entrySize pages start memory = some (memory', slab)) :
    Valid entrySize (created memory' slab start pages) (slots entrySize ⟨start, pages⟩) := by
  have hnothing : Valid entrySize ⟨memory, ⟨NULL, entrySize, NULL, NULL⟩, [], []⟩ [] :=
    ⟨rfl, rfl, nodup_nil, by simp, Pairwise.nil, by simp⟩
  exact hnothing.grow hpos hmul hroom (by simp) hcreate

theorem entryCount_pos (hfits : headerOffset entrySize + entrySize ≤ pages * PAGE_SIZE) :
    0 < entryCount entrySize pages :=
  Nat.div_pos (by omega) hpos

end

theorem exists_heapCreateSlab (self start : ℕ) (memory : Bytes) (hpos : 0 < entrySize)
    (hfits : headerOffset entrySize + entrySize ≤ pages * PAGE_SIZE) :
    ∃ memory' slab, heapCreateSlab self entrySize pages start memory = some (memory', slab) := by
  obtain ⟨⟨memory', slab⟩, hcreate⟩ := isSome_iff_exists.mp
    ((@heapCreateSlab_isSome entrySize pages self memory start).mpr
      ⟨hpos, entryCount_pos hpos hfits⟩)
  exact ⟨memory', slab, hcreate⟩

/-- **Slab construction.** The free list runs through all entries that fit behind the header, in the
order of their addresses, and ends with `NULL`. -/
theorem heapCreateSlab_fills (self start : ℕ) (memory : Bytes) (hpositive : 0 < entrySize)
    (hmultiple : WORD ∣ entrySize) (hfits : headerOffset entrySize + entrySize ≤ pages * PAGE_SIZE)
    (hroom : start + pages * PAGE_SIZE ≤ 2 ^ 64) :
    ∃ memory' slab, heapCreateSlab self entrySize pages start memory = some (memory', slab) ∧
      ∃ nodes, Threaded memory' slab.firstFree nodes ∧ NULL ∉ nodes ∧ nodes.Nodup ∧
        nodes.length = (pages * PAGE_SIZE - headerOffset entrySize) / entrySize ∧
        (∀ index node, nodes[index]? = some node →
          node = start + headerOffset entrySize + index * entrySize) ∧
        nodes.Pairwise (ObjectsApart entrySize) ∧
        ∀ node ∈ nodes, start + WORD ≤ node ∧ node + entrySize ≤ start + pages * PAGE_SIZE := by
  obtain ⟨memory', slab, hcreate⟩ := exists_heapCreateSlab self start memory hpositive hfits
  have hnodup := slots_nodup hpositive ⟨start, pages⟩
  have hin : ∀ node ∈ slots entrySize ⟨start, pages⟩, _ := fun _ ↦ slot_inside hpositive
  refine ⟨memory', slab, hcreate, slots entrySize ⟨start, pages⟩,
    (heapCreateSlab_spec hmultiple hroom hcreate).2.2, ?_, hnodup, by simp [slots, entryCount],
    ?_, hnodup.imp_of_mem fun hnode hother ↦ slots_apart_self hnode hother, hin⟩
  · intro hnull
    exact absurd (hin NULL hnull).1 (by simp [WORD, NULL])
  · intro index node hnode
    obtain ⟨-, rfl⟩ := List.getElem?_eq_some_iff.mp hnode
    simp [slots]

theorem heapCreateSlab_fills_page :
    ∃ memory slab, heapCreateSlab 1 1024 1 4096 (fun _ ↦ 0) = some (memory, slab) ∧
      ∃ nodes : List ℕ, Threaded memory slab.firstFree nodes ∧ nodes.length = 3 := by
  obtain ⟨memory, slab, hcreate, nodes, hthreaded, -, -, hlen, -⟩ :=
    @heapCreateSlab_fills 1024 1 1 4096 (fun _ ↦ 0) (by decide) (by decide) (by decide) (by decide)
  exact ⟨memory, slab, hcreate, nodes, hthreaded, hlen⟩

theorem run_returns (hpos : 0 < entrySize) (hmul : WORD ∣ entrySize)
    (hvalid : Valid entrySize state free)
    (hdefault : headerOffset entrySize + entrySize ≤ DEFAULT_SLAB_SIZE_PAGES * PAGE_SIZE)
    {ops : List Operation} (hguarded : Guarded (step self) Promised state ops) :
    ∃ final outs, run (step self) state ops = some (final, outs) := by
  have hstep : ∀ state op, (∃ free, Valid entrySize state free) →
      Promised state op → ∃ next out, step self state op = some (next, out) ∧
        ∃ free, Valid entrySize next free := by
    intro state op hvalid hprom
    obtain ⟨free, hstate⟩ := hvalid
    obtain ⟨next, out, hstep⟩ := @step_returns _ self _ _ hpos
      (entryCount_pos hpos hdefault) hstate op
    exact ⟨next, out, hstep, step_valid hpos hmul ⟨free, hstate⟩ hprom hstep⟩
  obtain ⟨final, outs, hrun, -⟩ := run_invariant hstep ops state ⟨free, hvalid⟩ hguarded
  exact ⟨final, outs, hrun⟩

/-- **Slab objects never overlap.** A slab can be created exactly if an entry fits behind the
header offset. In every state that promised operations reach from there, the objects handed out
are disjoint ranges inside the regions obtained and clear of all header words, and the object that
a further allocation returns is filled with zeros. If an entry also fits into a region of the
default size, by which the slab grows, then every promised run returns. -/
theorem run_objects_separate (self start : ℕ) (memory : Bytes) (hpositive : 0 < entrySize)
    (hmultiple : WORD ∣ entrySize) (hfits : headerOffset entrySize + entrySize ≤ pages * PAGE_SIZE)
    (hroom : start + pages * PAGE_SIZE ≤ 2 ^ 64) :
    ∃ memory' slab, heapCreateSlab self entrySize pages start memory = some (memory', slab) ∧
      ∀ operations, Guarded (step self) Promised (created memory' slab start pages) operations →
        (∀ final outs, run (step self) (created memory' slab start pages) operations =
            some (final, outs) →
          Separate entrySize final ∧
          ∀ region next address, Promised final (.allocate region) →
            step self final (.allocate region) = some (next, address) →
            ∀ index < entrySize, next.memory (address + index) = 0) ∧
        (headerOffset entrySize + entrySize ≤ DEFAULT_SLAB_SIZE_PAGES * PAGE_SIZE →
          ∃ final outs, run (step self) (created memory' slab start pages) operations =
            some (final, outs)) := by
  obtain ⟨memory', slab, hcreate⟩ := exists_heapCreateSlab self start memory hpositive hfits
  have hstart := created_valid hpositive hmultiple hroom hcreate
  refine ⟨memory', slab, hcreate, fun operations hguarded ↦ ⟨fun final outs hrun ↦ ?_,
    fun hdefault ↦ run_returns hpositive hmultiple hstart hdefault hguarded⟩⟩
  obtain ⟨free, hvalid⟩ := run_preserves (fun state op next out hvalid hprom hstep ↦
    step_valid hpositive hmultiple hvalid hprom hstep) ⟨_, hstart⟩ hguarded hrun
  refine ⟨hvalid.separate hpositive, fun region next address hprom hstep ↦ ?_⟩
  exact (allocate_spec hpositive hmultiple hvalid hprom hstep).2.2

/-- A slab of one entry that grows, with a client that writes over its object. -/
theorem run_objects_separate_grown :
    ∃ memory slab, heapCreateSlab 1 16384 8 65536 (fun _ ↦ 0) = some (memory, slab) ∧
      ∃ final outs, run (step 1) (created memory slab 65536 8)
          [.allocate 0, .write (fun _ ↦ 255), .allocate 131072, .free 81920, .allocate 0] =
            some (final, outs) ∧
        Separate 16384 final := by
  obtain ⟨memory, slab, hcreate, hruns⟩ := @run_objects_separate 16384 8 1 65536 (fun _ ↦ 0)
    (by decide) (by decide) (by decide) (by decide)
  have hslab : heapCreateSlab 1 16384 8 65536 (fun _ ↦ 0) = some (_, _) := rfl
  obtain ⟨rfl, rfl⟩ := mk.inj (some.inj (hcreate.symm.trans hslab))
  obtain ⟨hsafe, hret⟩ := hruns
    [.allocate 0, .write (fun _ ↦ 255), .allocate 131072, .free 81920, .allocate 0]
    (by decide +kernel)
  obtain ⟨final, outs, hrun⟩ := hret (by decide)
  exact ⟨_, _, hslab, final, outs, hrun, (hsafe final outs hrun).1⟩

end DionysOS.Memory.Slab
