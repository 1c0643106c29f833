import DionysOS.Memory.PmmConservation
import DionysOS.Scheduling.ProcessTeardown
import Mathlib.Data.List.Pairwise

/-!
# The memory of the kernel is mapped

`phys_init` files a block in the pool of the kernel if it starts above three quarters of memory, and
keeps the end of the last block of the user pool. `map_kernel_address_space` maps the memory from
there to the highest usable address into the direct map. The ranges are visited in the order of
their sizes, so that the blocks of the kernel are above the last block of the users does not follow
from the order of the visits: it follows from the comparison of starts and from the blocks being
disjoint.
-/

namespace DionysOS.Memory.Pmm

open DataStructures List SinglyLinkedList Function BitVec State Scheduling
open Paging (Word KernelLayout Ready MapsRange mapKernelAddressSpace mapKernelAddressSpace_spec
  pageAfter pageCount pageCount_of_aligned translation translation_eq PTE_ADDR PTE_P PTE_RW PTE_NX
  PGROUNDDOWN_of_aligned)

variable {pool : List Ptr} {lists : NodeStore} {entries : List MemmapEntry} {state : State}

/-- `highest_user_phys_addr` is zero, or where a block of the user pool ends. -/
def EndsUser (state : State) : Prop :=
  state.highestUserPhysAddr = 0 ∨ ∃ key, ∃ block ∈ state.buddyFreeListZone USER_POOL key,
    state.highestUserPhysAddr = (state.blocks block).startAddress + 2 ^ MAX_ORDER * PAGE_SIZE

variable {after : State} {block : Ptr} {key : ℕ} {pgdir : Word}

theorem EndsUser.congr (hends : EndsUser state)
    (hhighest : after.highestUserPhysAddr = state.highestUserPhysAddr)
    (hstart : ∀ block, (after.blocks block).startAddress = (state.blocks block).startAddress)
    (htrees : ∀ key, ∀ block ∈ state.buddyFreeListZone USER_POOL key,
      block ∈ after.buddyFreeListZone USER_POOL key) : EndsUser after := by
  rcases hends with hzero | ⟨key, block, hblock, hend⟩
  · exact .inl (hhighest.trans hzero)
  · exact .inr ⟨key, block, htrees key block hblock, by rw [hhighest, hstart, hend]⟩

theorem fileBlock_endsUser {userSpan idx : ℕ} (hends : EndsUser state)
    (hfile : fileBlock userSpan state idx = some after) : EndsUser after := by
  have hstart : ∀ zone block, ((state.setBlock (descriptor idx)
      { state.blocks (descriptor idx) with zone := zone }).blocks block).startAddress =
        (state.blocks block).startAddress := by
    intro zone block
    by_cases h : block = descriptor idx
    · subst h
      simp [setBlock]
    · simp [setBlock, h]
  unfold fileBlock at hfile
  simp only at hfile
  split at hfile
  · rw [insertTreeNode_eq (by decide)] at hfile
    cases hfile
    refine hends.congr rfl (hstart KERNEL_POOL) fun key block hblock ↦ ?_
    have hne : USER_POOL ≠ KERNEL_POOL := by decide
    simpa [setEntries, setBlock, hne] using hblock
  · rw [insertTreeNode_eq (by decide)] at hfile
    cases hfile
    have hkept : ∀ key, ∀ block ∈ state.buddyFreeListZone USER_POOL key,
        block ∈ (state.setEntries USER_POOL (state.blocks (descriptor idx)).order
          (state.buddyFreeListZone USER_POOL (state.blocks (descriptor idx)).order ++
            [descriptor idx])).buddyFreeListZone USER_POOL key := by
      intro key block hblock
      by_cases hkey : key = (state.blocks (descriptor idx)).order
      · subst hkey
        rw [setEntries_entries]
        exact mem_append_left _ hblock
      · simpa [setEntries, hkey] using hblock
    by_cases hless : state.highestUserPhysAddr ≤
        (state.blocks (descriptor idx)).startAddress + 2 ^ MAX_ORDER * PAGE_SIZE
    · -- The block that is filed now is the last one so far.
      refine .inr ⟨(state.blocks (descriptor idx)).order, descriptor idx, ?_, ?_⟩
      · simp [setEntries]
      · simp [setEntries, setBlock, max_eq_right hless]
    · exact hends.congr (max_eq_left (Nat.le_of_not_le hless)) (hstart USER_POOL) hkept

theorem physInit_endsUser (hinit : physInit pool lists entries = some state) : EndsUser state := by
  obtain ⟨ranges, cut, lists', filed, hinitialised⟩ := physInit_initialised hinit
  obtain ⟨lists'', table, -, rfl⟩ := hinitialised.table
  have hfiled : EndsUser filed := by
    refine @foldlM_fileRange_preserves _ EndsUser ?_ _ _ _ _ (.inl rfl) hinitialised.fileAll
    exact fileBlock_endsUser
  exact hfiled.congr rfl (fun _ ↦ rfl) fun _ _ h ↦ h

theorem dvd_foldl_max {usable : List MemmapEntry}
    (haligned : ∀ entry ∈ usable, PAGE_SIZE ∣ entry.base ∧ PAGE_SIZE ∣ entry.length) :
    ∀ {highest : ℕ}, PAGE_SIZE ∣ highest → PAGE_SIZE ∣
      usable.foldl (fun highest entry ↦ max highest (entry.base + entry.length)) highest := by
  induction usable with
  | nil => exact fun hhighest ↦ hhighest
  | cons first usable ih =>
    intro highest hhighest
    apply ih fun entry hentry ↦ haligned entry (mem_cons_of_mem _ hentry)
    obtain ⟨hbase, hlen⟩ := haligned first mem_cons_self
    dsimp only
    rcases le_total highest (first.base + first.length) with h | h
    · rw [max_eq_right h]
      exact Nat.dvd_add hbase hlen
    · rwa [max_eq_left h]

theorem blockPages_disjoint (hnodup : ((filedPages state).map Prod.snd).Nodup) {first second : Ptr}
    (hfirst : first ∈ allFiled state) (hsecond : second ∈ allFiled state) (hne : first ≠ second) :
    (blockPages (state.blocks first)).Disjoint (blockPages (state.blocks second)) := by
  have hpages : (filedPages state).map Prod.snd =
      (allFiled state).flatMap fun block ↦ blockPages (state.blocks block) := by
    rw [filedPages, map_flatMap]
    apply flatMap_congr
    intro block _
    rw [zonedPages, map_map, blockPages]
    exact map_id _
  rw [hpages, nodup_flatMap] at hnodup
  have hsymm : Std.Symm (onFun Disjoint fun block ↦ blockPages (state.blocks block)) :=
    ⟨fun _ _ h ↦ h.symm⟩
  exact hnodup.2.forall hfirst hsecond hne

/-- What the boot loader and the linker provide: the direct map is in the upper half and has room
for the memory, and no part of the kernel goes round the address space. -/
structure DirectMap (layout : KernelLayout) (entries : List MemmapEntry) (state : State) : Prop where
  user : layout.highestUserPhysAddr = BitVec.ofNat 64 state.highestUserPhysAddr
  highest : layout.highestAddress = BitVec.ofNat 64 (highestAddress entries)
  aligned : layout.hhdmOffset.toNat % 4096 = 0
  upper : Paging.UPPER_HALF ≤ layout.hhdmOffset.toNat
  room : layout.hhdmOffset.toNat + highestAddress entries ≤ 2 ^ 64
  text : pageCount layout.textStart (layout.textEnd - layout.textStart) < 2 ^ 36
  rodata : pageCount layout.rodataStart (layout.rodataEnd - layout.rodataStart) < 2 ^ 36
  data : pageCount layout.dataStart (layout.dataEnd - layout.dataStart) < 2 ^ 36

/-- An empty table, and pages from `kzmalloc` for the levels below it. -/
structure EmptyTable (machine : Paging.Machine) (pgdir : Word) : Prop where
  nonnull : pgdir ≠ 0
  empty : ∀ index, machine.memory pgdir index = 0
  nodup : machine.supply.Nodup
  aligned : ∀ page ∈ machine.supply, page &&& 0xFFF#64 = 0 ∧ page.toNat < 2 ^ 52
  fresh : pgdir ∉ machine.supply

theorem EmptyTable.ready {machine : Paging.Machine} (hempty : EmptyTable machine pgdir) :
    Ready machine pgdir := by
  have hzeroed := ready_zeroed hempty.nodup
    (fun page hpage ↦ Paging.PTE_ADDR_of_aligned (hempty.aligned page hpage).1
      (hempty.aligned page hpage).2) hempty.fresh
  have hsame : update machine.memory pgdir (fun _ ↦ 0) = machine.memory :=
    update_eq_self_iff.mpr (funext fun idx ↦ (hempty.empty idx).symm)
  rwa [hsame] at hzeroed

/-- The entry for a page is present and writable and holds the address of the page. -/
def MapsWritable (memory : Paging.TableMemory) (pgdir va physaddr : Word) : Prop :=
  ∃ entry, translation memory pgdir va = some entry ∧ PTE_ADDR entry = physaddr ∧
    entry &&& PTE_P ≠ 0 ∧ entry &&& PTE_RW ≠ 0

theorem mapsWritable_of_mapsRange {before after : Paging.Machine} {addr physaddr : Word} {count : ℕ}
    (hpgdir : pgdir ≠ 0)
    (hmaps : MapsRange before after pgdir addr physaddr (PTE_RW ||| PTE_NX) count) {i : ℕ}
    (hi : i ≤ count) (haligned : pageAfter physaddr i &&& 0xFFF#64 = 0)
    (hbound : (pageAfter physaddr i).toNat < 2 ^ 52) :
    MapsWritable after.memory pgdir (pageAfter addr i) (pageAfter physaddr i) := by
  let entry := pageAfter physaddr i ||| (PTE_RW ||| PTE_NX) ||| PTE_P
  have hpresent : entry &&& PTE_P = PTE_P := Paging.or_and_self ..
  have hwritable : entry &&& PTE_RW = PTE_RW := by
    have hswap : entry = pageAfter physaddr i ||| (PTE_NX ||| PTE_P) ||| PTE_RW := by
      simp only [entry, BitVec.or_assoc]
      rw [BitVec.or_comm PTE_RW, BitVec.or_assoc]
    rw [hswap]
    exact Paging.or_and_self ..
  refine ⟨entry, ?_, ?_, ?_, ?_⟩
  · exact hmaps.translation_mapped hpgdir hi
  · have hflags : PTE_ADDR (PTE_RW ||| PTE_NX) = 0 := by decide
    have hbit : PTE_ADDR PTE_P = 0 := by decide
    rw [Paging.PTE_ADDR_or, Paging.PTE_ADDR_or, Paging.PTE_ADDR_of_aligned haligned hbound, hflags,
      hbit]
    simp
  · rw [hpresent]
    decide
  · rw [hwritable]
    decide

section

variable (hready : Ready pool lists) (hmap : WellFormedMap entries)
  (hinit : physInit pool lists entries = some state)
include hready hmap hinit

theorem physInit_zones {zone : ℕ} (hblock : block ∈ state.buddyFreeListZone zone key) :
    key = MAX_ORDER ∧
      zone = zoneOf (userSpanSize (highestAddress entries)) (state.blocks block).startAddress := by
  obtain ⟨ranges, cut, lists', filed, hbooted⟩ := physInit_booted hready hmap hinit
  obtain ⟨table, rfl, -⟩ := hbooted.table
  rw [hbooted.filing.trees] at hblock
  split at hblock
  · rename_i hkey
    obtain ⟨hrange, hzone⟩ := mem_filter.mp hblock
    obtain ⟨hlow, hhigh⟩ := mem_range'_1.mp hrange
    refine ⟨hkey, ?_⟩
    rw [hbooted.filing.blocks, if_pos ⟨hlow, by omega⟩]
    exact (by simpa using hzone : _ = zone).symm
  · cases hblock

theorem kernelPool_range (hblock : block ∈ state.buddyFreeListZone KERNEL_POOL key) {page : ℕ}
    (hpage : page ∈ blockPages (state.blocks block)) :
    state.highestUserPhysAddr ≤ page * PAGE_SIZE ∧
      page * PAGE_SIZE + PAGE_SIZE ≤ highestAddress entries := by
  obtain ⟨hacc, -, hnodup⟩ := physInit_spec hready hmap hinit
  have hfiled : ∀ {zone key block}, zone < ZONES → block ∈ state.buddyFreeListZone zone key →
      block ∈ allFiled state ∧ (state.blocks block).order = MAX_ORDER ∧
        PAGE_SIZE ∣ (state.blocks block).startAddress ∧
        Within entries (state.blocks block).startAddress (2 ^ (state.blocks block).order) := by
    intro zone key block hzone hblock
    have hunder := hacc.filed zone hzone key block hblock
    have hmem := mem_allFiled.mpr ⟨zone, hzone, key, hunder.le, hblock⟩
    have hsound := hacc.sound block (mem_append_right _ hmem)
    exact ⟨hmem, hunder.order.trans (physInit_zones hready hmap hinit hblock).1, hsound.aligned,
      hsound.fits⟩
  obtain ⟨hmem, horder, ⟨start, hstart⟩, entry, hentry, -, hend⟩ :=
    hfiled (by decide : KERNEL_POOL < ZONES) hblock
  have hkernel : userSpanSize (highestAddress entries) < (state.blocks block).startAddress := by
    have hzone := (physInit_zones hready hmap hinit hblock).2
    by_contra hle
    rw [zoneOf, if_neg hle] at hzone
    exact absurd hzone (by decide)
  have hpages : start ≤ page ∧ page < start + 2 ^ MAX_ORDER := by
    rw [blockPages, horder, hstart, Nat.mul_div_cancel_left _ (by decide)] at hpage
    exact mem_range'_1.mp hpage
  constructor
  · rcases physInit_endsUser hinit with hzero | ⟨key', last, hlast, hends⟩
    · rw [hzero]
      exact Nat.zero_le _
    · obtain ⟨hlastMem, hlastOrder, ⟨start', hstart'⟩, -⟩ :=
        hfiled (by decide : USER_POOL < ZONES) hlast
      have huser : (state.blocks last).startAddress ≤ userSpanSize (highestAddress entries) := by
        have hzone := (physInit_zones hready hmap hinit hlast).2
        by_contra hgt
        rw [zoneOf, if_pos (Nat.not_le.mp hgt)] at hzone
        exact absurd hzone (by decide)
      have hne : block ≠ last := by
        rintro rfl
        exact absurd hkernel (Nat.not_lt.mpr huser)
      have hdisj := blockPages_disjoint hnodup hmem hlastMem hne
      simp only [blockPages, horder, hlastOrder, hstart, hstart',
        Nat.mul_div_cancel_left _ (show 0 < PAGE_SIZE by decide)] at hdisj
      have hout : start ∉ range' start' (2 ^ MAX_ORDER) := fun h ↦ hdisj
        (mem_range'_1.mpr ⟨le_rfl, Nat.lt_add_of_pos_right (by decide)⟩) h
      rw [mem_range'_1] at hout
      simp only [hstart, hstart', PAGE_SIZE, MAX_ORDER] at *
      omega
  · have hle := le_highestAddress hentry
    rw [horder, hstart] at hend
    simp only [PAGE_SIZE, MAX_ORDER] at *
    omega

theorem highestUserPhysAddr_le :
    PAGE_SIZE ∣ state.highestUserPhysAddr ∧
      state.highestUserPhysAddr ≤ highestAddress entries := by
  rcases physInit_endsUser hinit with hzero | ⟨key, block, hblock, hends⟩
  · rw [hzero]
    exact ⟨Nat.dvd_zero _, Nat.zero_le _⟩
  · have hacc := (physInit_spec hready hmap hinit).1
    have hunder := hacc.filed USER_POOL (by decide) key block hblock
    have hmem := mem_allFiled.mpr ⟨USER_POOL, by decide, key, hunder.le, hblock⟩
    have hsound := hacc.sound block (mem_append_right _ hmem)
    obtain ⟨entry, hentry, -, hend⟩ := hsound.fits
    rw [hunder.order, (physInit_zones hready hmap hinit hblock).1] at hend
    rw [hends]
    exact ⟨Nat.dvd_add hsound.aligned (Nat.dvd_mul_left ..), hend.trans (le_highestAddress hentry)⟩

theorem DirectMap.bounded {layout : KernelLayout} (hdirect : DirectMap layout entries state) :
    layout.Bounded ∧ (layout.highestUserPhysAddr + layout.hhdmOffset).toNat % 4096 = 0 ∧
      pageCount (layout.highestUserPhysAddr + layout.hhdmOffset)
        (layout.highestAddress - layout.highestUserPhysAddr) =
          (highestAddress entries - state.highestUserPhysAddr) / 4096 := by
  obtain ⟨⟨user, huser⟩, hle⟩ := highestUserPhysAddr_le hready hmap hinit
  obtain ⟨highest, hhighest⟩ : PAGE_SIZE ∣ highestAddress entries :=
    dvd_foldl_max hmap.aligned (dvd_zero _)
  have hroom := hdirect.room
  have hupper := hdirect.upper
  have haligned := hdirect.aligned
  simp only [Paging.UPPER_HALF, PAGE_SIZE] at hupper huser hhighest
  have hva : (layout.highestUserPhysAddr + layout.hhdmOffset).toNat % 4096 = 0 := by
    rw [hdirect.user, toNat_add, toNat_ofNat]
    omega
  have hsize : (layout.highestAddress - layout.highestUserPhysAddr).toNat =
      highestAddress entries - state.highestUserPhysAddr := by
    rw [hdirect.user, hdirect.highest, toNat_sub, toNat_ofNat, toNat_ofNat]
    omega
  have hcount := pageCount_of_aligned hva (by rw [hsize]; omega)
  rw [hsize] at hcount
  have hlow : pageCount (0 + layout.hhdmOffset) Paging.FOUR_GB = 2 ^ 20 := by
    have hzero : 0 + layout.hhdmOffset = layout.hhdmOffset := zero_add _
    rw [hzero, pageCount_of_aligned haligned (by decide)]
    decide
  exact ⟨⟨hdirect.text, hdirect.rodata, hdirect.data, by rw [hlow]; decide, by rw [hcount]; omega⟩,
    hva, hcount⟩

end

/-- **The memory of the kernel is mapped.** Every page of every block in the pool of the kernel is
between the end of the user pool and the highest address, and `map_kernel_address_space` returns
and maps its address in the direct map to it, present and writable. -/
theorem kernelPool_mapped (hready : Ready pool lists) (hmap : WellFormedMap entries)
    (hinit : physInit pool lists entries = some state) :
    (∀ key, ∀ block ∈ state.buddyFreeListZone KERNEL_POOL key,
      ∀ page ∈ blockPages (state.blocks block), state.highestUserPhysAddr ≤ page * PAGE_SIZE ∧
        page * PAGE_SIZE + PAGE_SIZE ≤ highestAddress entries) ∧
    ∀ (layout : KernelLayout) (machine : Paging.Machine) (pgdir : Word),
      DirectMap layout entries state → EmptyTable machine pgdir →
      layout.tableBound ≤ machine.supply.length →
      ∃ after, mapKernelAddressSpace layout machine pgdir = some after ∧
        ∀ key, ∀ block ∈ state.buddyFreeListZone KERNEL_POOL key,
          ∀ page ∈ blockPages (state.blocks block), MapsWritable after.memory pgdir
            (BitVec.ofNat 64 (page * PAGE_SIZE) + layout.hhdmOffset)
            (BitVec.ofNat 64 (page * PAGE_SIZE)) := by
  refine ⟨fun key block hblock page hpage ↦ kernelPool_range hready hmap hinit hblock hpage,
    fun layout machine pgdir hdirect hempty hsupply ↦ ?_⟩
  obtain ⟨hbounded, hva, hcount⟩ := hdirect.bounded hready hmap hinit
  obtain ⟨_, after, hafter, -, -, hmaps⟩ :=
    mapKernelAddressSpace_spec hbounded hempty.ready hempty.nonnull hsupply
  refine ⟨after, hafter, fun key block hblock page hpage ↦ ?_⟩
  obtain ⟨hlow, hhigh⟩ := kernelPool_range hready hmap hinit hblock hpage
  obtain ⟨⟨user, huser⟩, -⟩ := highestUserPhysAddr_le hready hmap hinit
  have hroom := hdirect.room
  have hupper := hdirect.upper
  simp only [Paging.UPPER_HALF, PAGE_SIZE] at hupper huser hlow hhigh ⊢
  -- The page is number `page - user` of the last range.
  have hphys : pageAfter layout.highestUserPhysAddr (page - user) = BitVec.ofNat 64 (page * 4096) := by
    apply eq_of_toNat_eq
    rw [pageAfter, hdirect.user, toNat_add, toNat_ofNat, toNat_ofNat,
      toNat_ofNat]
    omega
  have hvirt : pageAfter (layout.highestUserPhysAddr + layout.hhdmOffset) (page - user) =
      BitVec.ofNat 64 (page * 4096) + layout.hhdmOffset := by
    rw [← hphys, pageAfter, pageAfter, add_assoc, add_comm layout.hhdmOffset,
      ← add_assoc]
  rw [PGROUNDDOWN_of_aligned hva, hcount] at hmaps
  have hpage := mapsWritable_of_mapsRange hempty.nonnull hmaps (i := page - user) (by omega)
  rw [hphys, hvirt] at hpage
  apply hpage
  · apply eq_of_toNat_eq
    rw [toNat_and, toNat_ofNat, show (0xFFF#64).toNat = 2 ^ 12 - 1 by decide,
      Nat.and_two_pow_sub_one_eq_mod]
    show _ = 0
    omega
  · rw [toNat_ofNat]
    omega

/-- The layout for a memory with one block, which is the kernel's. -/
def oneBlockLayout : KernelLayout :=
  { Scheduling.bootLayout with highestUserPhysAddr := 0, highestAddress := 0x1400000 }

theorem oneBlockLayout_tableBound : oneBlockLayout.tableBound = 3161112 := by decide

theorem emptyTable_bootMachine : EmptyTable bootMachine 0x1000 where
  nonnull := by decide
  empty _ := rfl
  nodup := nodup_bootMachine
  aligned page hpage := by
    obtain ⟨i, hi, rfl⟩ := mem_bootMachine.mp hpage
    exact bootPage_aligned hi
  fresh := notMem_bootMachine

/-- The first page of the block is mapped. -/
theorem kernelPool_mapped_oneBlock : ∃ after,
    mapKernelAddressSpace oneBlockLayout Scheduling.bootMachine 0x1000 = some after ∧
      MapsWritable after.memory 0x1000 (0x1000000 + oneBlockLayout.hhdmOffset) 0x1000000 := by
  have huser : oneBlockState.highestUserPhysAddr = 0 := by decide +kernel
  have hdirect : DirectMap oneBlockLayout oneBlockMap oneBlockState :=
    ⟨by rw [huser]; rfl, by decide, by decide, by decide, by decide, by decide, by decide, by decide⟩
  have hsupply : oneBlockLayout.tableBound ≤ bootMachine.supply.length := by
    rw [oneBlockLayout_tableBound, bootMachine, length_map, length_range]
    decide
  have hblock : descriptor 0 ∈ oneBlockState.buddyFreeListZone KERNEL_POOL MAX_ORDER := by
    decide +kernel
  have hpage : 4096 ∈ blockPages (oneBlockState.blocks (descriptor 0)) := by decide +kernel
  obtain ⟨after, hafter, hmapped⟩ := (kernelPool_mapped ready_eightNodes ⟨by decide, by decide⟩
    physInit_oneBlockMap).2 oneBlockLayout bootMachine 0x1000 hdirect
      emptyTable_bootMachine hsupply
  exact ⟨after, hafter, hmapped MAX_ORDER (descriptor 0) hblock 4096 hpage⟩

end DionysOS.Memory.Pmm
