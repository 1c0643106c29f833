import DionysOS.Memory.Paging

/-!
# Mapping a range of pages

`map_pages` of the x86-64 `vmm.c` maps consecutive pages until it has mapped the page at `last`, which
is the end of the range rounded up. For a range that begins and ends at a page boundary that is one
page more than the range has. `map_kernel_address_space` maps five such ranges.

With enough pages in the supply the loop returns; it changes the translations of the pages from the
first to the last, and no others: `mapPages_spec`. When that is the range: `mapPages_exact_iff`.
-/

namespace DionysOS.Memory.Paging

open Foundation.RadixTable Option BitVec

def PAGE_SIZE : Word := 4096#64
def FOUR_GB : Word := 0x100000000#64

def PGROUNDUP (size : Word) : Word := (size + PAGE_SIZE - 1) &&& ~~~(PAGE_SIZE - 1)

def PGROUNDDOWN (address : Word) : Word := address &&& ~~~(PAGE_SIZE - 1)

/-- The loop of `map_pages`. -/
def mapPagesLoop (pgdir perms last : Word) :
    ℕ → Machine → (address physaddr : Word) → Option (Machine × ℤ)
  | 0, _, _, _ => none
  | fuel + 1, machine, address, physaddr => do
      let flags := if perms &&& PTE_U ≠ 0 then ALLOC ||| USER_ALLOC else ALLOC
      let (machine, pte) ← walkPageDirectory machine pgdir address flags
      match pte with
      | none => some (machine, -1)
      | some (table, index) =>
          if perms &&& PTE_U ≠ 0 ∧ machine.memory table index &&& PTE_P ≠ 0 then none
          else
            let machine :=
              { machine with memory := store machine.memory table index (physaddr ||| perms ||| PTE_P) }
            if address = last then some (machine, 0)
            else mapPagesLoop pgdir perms last fuel machine (address + PAGE_SIZE) (physaddr + PAGE_SIZE)

/-- `map_pages`. The addresses are multiples of the page size, so the loop meets the last one. -/
def mapPages (machine : Machine) (pgdir physaddr va perms size : Word) : Option (Machine × ℤ) :=
  let address := PGROUNDDOWN va
  let last := PGROUNDUP (va + size - 1)
  mapPagesLoop pgdir perms last ((last - address).toNat / 4096 + 1) machine address physaddr

/-- The symbols of the linker script and the memory map of the boot loader. -/
structure KernelLayout where
  kernelMin : Word
  kernelPhysMin : Word
  textStart : Word
  textEnd : Word
  rodataStart : Word
  rodataEnd : Word
  dataStart : Word
  dataEnd : Word
  hhdmOffset : Word
  highestUserPhysAddr : Word
  highestAddress : Word

/-- `map_pages`, and a panic if it fails. -/
def mapOrPanic (machine : Machine) (pgdir physaddr va perms size : Word) : Option Machine := do
  let (machine, result) ← mapPages machine pgdir physaddr va perms size
  if result = -1 then none else some machine

def mapKernelAddressSpace (layout : KernelLayout) (machine : Machine) (pgdir : Word) :
    Option Machine := do
  let machine ← mapOrPanic machine pgdir (layout.textStart - layout.kernelMin + layout.kernelPhysMin)
    layout.textStart 0 (layout.textEnd - layout.textStart)
  let machine ← mapOrPanic machine pgdir
    (layout.rodataStart - layout.kernelMin + layout.kernelPhysMin) layout.rodataStart PTE_NX
    (layout.rodataEnd - layout.rodataStart)
  let machine ← mapOrPanic machine pgdir (layout.dataStart - layout.kernelMin + layout.kernelPhysMin)
    layout.dataStart (PTE_NX ||| PTE_RW) (layout.dataEnd - layout.dataStart)
  let machine ← mapOrPanic machine pgdir 0 (0 + layout.hhdmOffset) (PTE_RW ||| PTE_NX) FOUR_GB
  mapOrPanic machine pgdir layout.highestUserPhysAddr
    (layout.highestUserPhysAddr + layout.hhdmOffset) (PTE_RW ||| PTE_NX)
    (layout.highestAddress - layout.highestUserPhysAddr)

variable {address perms va size pgdir : Word} {i : ℕ} {machine : Machine} {layout : KernelLayout}

theorem mapPagesLoop_round (hready : Ready machine pgdir)
    (hpgdir : pgdir ≠ 0) (last physaddr : Word) (hsupply : 3 ≤ machine.supply.length)
    (hremap : perms &&& PTE_U ≠ 0 → leafAt machine.memory pgdir (path address) (PTX address) = none)
    (fuel : ℕ) : ∃ after, Maps machine after pgdir address (physaddr ||| perms ||| PTE_P) ∧
      mapPagesLoop pgdir perms last (fuel + 1) machine address physaddr =
        if address = last then some (after, 0)
        else mapPagesLoop pgdir perms last fuel after (address + PAGE_SIZE) (physaddr + PAGE_SIZE) := by
  obtain ⟨walked, pte, hwalk, -⟩ := walkPageDirectory_returns hpgdir
    (if perms &&& PTE_U ≠ 0 then ALLOC ||| USER_ALLOC else ALLOC) address hsupply
  obtain ⟨-, page, rfl, hleaf, hmaps⟩ := maps_of_walk hready hwalk (physaddr ||| perms ||| PTE_P)
  have hfree : ¬(perms &&& PTE_U ≠ 0 ∧ walked.memory page (PTX address) &&& PTE_P ≠ 0) := by
    rintro ⟨huser, hpresent⟩
    rw [hremap huser, leaf, if_neg hpresent] at hleaf
    cases hleaf
  refine ⟨_, hmaps, ?_⟩
  rw [mapPagesLoop]
  simp only [hwalk, bind_eq_bind, bind_some, if_neg hfree]

theorem maps_of_mapPagesLoop (hready : Ready machine pgdir) {last physaddr : Word} {fuel : ℕ}
    {outcome : Machine × ℤ}
    (hrun : mapPagesLoop pgdir perms last (fuel + 1) machine address physaddr = some outcome) :
    pgdir ≠ 0 ∧ ∃ after, Maps machine after pgdir address (physaddr ||| perms ||| PTE_P) ∧
      (if address = last then some (after, 0)
        else mapPagesLoop pgdir perms last fuel after (address + PAGE_SIZE) (physaddr + PAGE_SIZE)) =
          some outcome := by
  obtain ⟨⟨walked, pte⟩, hwalk, hrun⟩ := bind_eq_some_iff.mp hrun
  obtain ⟨hpgdir, page, rfl, -, hmaps⟩ := maps_of_walk hready hwalk (physaddr ||| perms ||| PTE_P)
  dsimp only at hrun
  split at hrun
  · cases hrun
  · exact ⟨hpgdir, _, hmaps, hrun⟩

def pageAfter (address : Word) (count : ℕ) : Word := address + BitVec.ofNat 64 (4096 * count)

theorem pageAfter_zero (address : Word) : pageAfter address 0 = address := by
  simp [pageAfter]

theorem pageAfter_succ (address : Word) (count : ℕ) :
    pageAfter (address + PAGE_SIZE) count = pageAfter address (count + 1) := by
  refine eq_of_toNat_eq ?_
  simp only [pageAfter, PAGE_SIZE, toNat_add, toNat_ofNat]
  omega

theorem samePage_pageAfter_iff (address : Word) (i j : ℕ) :
    SamePage (pageAfter address i) (pageAfter address j) ↔ i % 2 ^ 36 = j % 2 ^ 36 := by
  simp only [SamePage, pageAfter, toNat_add, toNat_ofNat]
  omega

theorem pageAfter_ne_last {count : ℕ} (hcount : 0 < count) (hbound : count < 2 ^ 52) :
    address ≠ pageAfter address count := by
  intro h
  have hnat := congrArg BitVec.toNat h
  simp only [pageAfter, BitVec.toNat_add, BitVec.toNat_ofNat] at hnat
  omega

/-- The pages from `address` on are mapped to those from `physaddr` on, and no others. -/
structure MapsRange (before after : Machine) (pgdir address physaddr perms : Word) (count : ℕ) :
    Prop where
  ready : Ready after pgdir
  supply : before.supply.length ≤ after.supply.length + 3 * (count + 1)
  mapped : ∀ i ≤ count, leafAt after.memory pgdir (path (pageAfter address i))
    (PTX (pageAfter address i)) = leaf (pageAfter physaddr i ||| perms ||| PTE_P)
  frame : ∀ steps : List Index, steps.length = 3 → ∀ index,
    (∀ i ≤ count, ¬(steps = path (pageAfter address i) ∧ index = PTX (pageAfter address i))) →
      leafAt after.memory pgdir steps index = leafAt before.memory pgdir steps index

theorem Maps.range {before after : Machine} {physaddr : Word}
    (hmaps : Maps before after pgdir address (physaddr ||| perms ||| PTE_P)) :
    MapsRange before after pgdir address physaddr perms 0 where
  ready := hmaps.ready
  supply := by simpa using hmaps.supply
  mapped i hi := by
    obtain rfl := Nat.le_zero.mp hi
    rw [pageAfter_zero, pageAfter_zero, hmaps.leaf _ rfl, if_pos ⟨rfl, rfl⟩]
  frame steps hsteps idx hother := by
    have hne := hother 0 le_rfl
    rw [pageAfter_zero] at hne
    rw [hmaps.leaf steps hsteps, if_neg hne]

theorem not_samePage_first {count : ℕ} (hbound : count + 1 < 2 ^ 36) {i : ℕ} (hi : i ≤ count) :
    ¬(path (pageAfter address (i + 1)) = path address ∧
      PTX (pageAfter address (i + 1)) = PTX address) := by
  have hfirst := samePage_pageAfter_iff address (i + 1) 0
  rw [pageAfter_zero] at hfirst
  rw [indices_eq_iff, hfirst]
  omega

theorem Maps.cons {before mid after : Machine} {physaddr : Word} {count : ℕ}
    (hmaps : Maps before mid pgdir address (physaddr ||| perms ||| PTE_P))
    (hrange : MapsRange mid after pgdir (address + PAGE_SIZE) (physaddr + PAGE_SIZE) perms count)
    (hbound : count + 1 < 2 ^ 36) :
    MapsRange before after pgdir address physaddr perms (count + 1) where
  ready := hrange.ready
  supply := by
    have hlater := hrange.supply
    have hnow := hmaps.supply
    omega
  mapped i hi := by
    cases i with
    | zero =>
      rw [pageAfter_zero, pageAfter_zero, hrange.frame _ rfl _ fun i hi ↦ ?_, hmaps.leaf _ rfl,
        if_pos ⟨rfl, rfl⟩]
      rw [pageAfter_succ]
      exact fun h ↦ not_samePage_first hbound hi ⟨h.1.symm, h.2.symm⟩
    | succ i =>
      have hlater := hrange.mapped i (by omega)
      rwa [pageAfter_succ, pageAfter_succ] at hlater
  frame steps hsteps idx hother := by
    have hne := hother 0 (Nat.zero_le _)
    rw [pageAfter_zero] at hne
    rw [hrange.frame steps hsteps idx fun i hi ↦ ?_, hmaps.leaf steps hsteps, if_neg hne]
    rw [pageAfter_succ]
    exact hother (i + 1) (by omega)

theorem mapPagesLoop_spec {pgdir perms : Word} (hpgdir : pgdir ≠ 0) : ∀ (count : ℕ) {machine : Machine}
    {address physaddr : Word}, Ready machine pgdir → count < 2 ^ 36 →
    3 * (count + 1) ≤ machine.supply.length →
    (perms &&& PTE_U ≠ 0 → ∀ i ≤ count, leafAt machine.memory pgdir (path (pageAfter address i))
      (PTX (pageAfter address i)) = none) →
    ∃ after, mapPagesLoop pgdir perms (pageAfter address count) (count + 1) machine address physaddr =
        some (after, 0) ∧ MapsRange machine after pgdir address physaddr perms count := by
  intro count
  induction count with
  | zero =>
    intro machine address physaddr hready _ hsupply hremap
    obtain ⟨after, hmaps, hrun⟩ := mapPagesLoop_round hready hpgdir (pageAfter address 0)
      physaddr (by omega) (fun huser ↦ by simpa [pageAfter_zero] using hremap huser 0 (le_refl 0)) 0
    rw [hrun, if_pos (pageAfter_zero address).symm]
    exact ⟨after, rfl, hmaps.range⟩
  | succ count ih =>
    intro machine address physaddr hready hbound hsupply hremap
    obtain ⟨mid, hmaps, hrun⟩ := mapPagesLoop_round hready hpgdir
      (pageAfter address (count + 1)) physaddr (by omega)
      (fun huser ↦ by simpa [pageAfter_zero] using hremap huser 0 (Nat.zero_le _)) (count + 1)
    obtain ⟨after, hrest, hrange⟩ := @ih mid (address + PAGE_SIZE) (physaddr + PAGE_SIZE)
      hmaps.ready (by omega) (by have := hmaps.supply; omega) (fun huser i hi ↦ by
        rw [pageAfter_succ, hmaps.leaf _ rfl, if_neg (not_samePage_first hbound hi)]
        exact hremap huser (i + 1) (by omega))
    rw [pageAfter_succ] at hrest
    rw [hrun, if_neg (pageAfter_ne_last (Nat.succ_pos _) (by omega)), hrest]
    exact ⟨after, rfl, hmaps.cons hrange hbound⟩

theorem mapsRange_of_mapPagesLoop : ∀ (count : ℕ) {machine : Machine} {address physaddr : Word}
    {outcome : Machine × ℤ}, Ready machine pgdir → count < 2 ^ 36 →
    mapPagesLoop pgdir perms (pageAfter address count) (count + 1) machine address physaddr =
      some outcome → MapsRange machine outcome.1 pgdir address physaddr perms count := by
  intro count
  induction count with
  | zero =>
    intro machine address physaddr outcome hready _ hrun
    obtain ⟨-, after, hmaps, hrun⟩ := maps_of_mapPagesLoop hready hrun
    rw [if_pos (pageAfter_zero address).symm] at hrun
    cases hrun
    exact hmaps.range
  | succ count ih =>
    intro machine address physaddr outcome hready hbound hrun
    obtain ⟨-, mid, hmaps, hrun⟩ := maps_of_mapPagesLoop hready hrun
    rw [if_neg (pageAfter_ne_last (Nat.succ_pos _) (by omega)), ← pageAfter_succ] at hrun
    exact hmaps.cons (ih hmaps.ready (by omega) hrun) hbound

/-- The number of pages after the first that `map_pages` maps for a range. -/
def pageCount (va size : Word) : ℕ := (PGROUNDUP (va + size - 1) - PGROUNDDOWN va).toNat / 4096

theorem toNat_and_page_mask (word : Word) :
    (word &&& ~~~(PAGE_SIZE - 1)).toNat = word.toNat / 4096 * 4096 := by
  have hmask : ~~~(PAGE_SIZE - 1) = allOnes 64 <<< 12 := by decide
  rw [hmask, ← shiftLeft_ushiftRight, toNat_shiftLeft, toNat_ushiftRight,
    Nat.shiftRight_eq_div_pow, Nat.shiftLeft_eq]
  omega

theorem pageAfter_pageCount (va size : Word) :
    pageAfter (PGROUNDDOWN va) (pageCount va size) = PGROUNDUP (va + size - 1) := by
  have hlast := toNat_and_page_mask (va + size - 1 + PAGE_SIZE - 1)
  have hfirst := toNat_and_page_mask va
  rw [← PGROUNDUP] at hlast
  rw [← PGROUNDDOWN] at hfirst
  refine eq_of_toNat_eq ?_
  rw [pageAfter, pageCount, toNat_add, toNat_ofNat, toNat_sub]
  omega

theorem PGROUNDDOWN_of_aligned (haligned : va.toNat % 4096 = 0) : PGROUNDDOWN va = va := by
  apply eq_of_toNat_eq
  rw [PGROUNDDOWN, toNat_and_page_mask]
  omega

theorem pageCount_of_aligned (hva : va.toNat % 4096 = 0)
    (hsize : size.toNat % 4096 = 0) : pageCount va size = size.toNat / 4096 := by
  rw [pageCount, PGROUNDDOWN_of_aligned hva, PGROUNDUP, toNat_sub, toNat_and_page_mask]
  have hone : (1 : Word).toNat = 1 := by decide
  simp only [PAGE_SIZE, toNat_add, toNat_sub, toNat_ofNat, hone]
  omega

/-- **Mapping a range.** With enough pages, and no user page in the way, `map_pages` maps the pages
from the first to the end of the range rounded up. -/
theorem mapPages_spec {machine : Machine} {pgdir va perms size : Word} (hready : Ready machine pgdir)
    (hpgdir : pgdir ≠ 0) (physaddr : Word) (hcount : pageCount va size < 2 ^ 36)
    (hsupply : 3 * (pageCount va size + 1) ≤ machine.supply.length)
    (hremap : perms &&& PTE_U ≠ 0 → ∀ i ≤ pageCount va size, leafAt machine.memory pgdir
      (path (pageAfter (PGROUNDDOWN va) i)) (PTX (pageAfter (PGROUNDDOWN va) i)) = none) :
    ∃ after, mapPages machine pgdir physaddr va perms size = some (after, 0) ∧
      MapsRange machine after pgdir (PGROUNDDOWN va) physaddr perms (pageCount va size) := by
  obtain ⟨after, hrun, hrange⟩ := @mapPagesLoop_spec pgdir perms hpgdir (pageCount va size) machine
    (PGROUNDDOWN va) physaddr hready hcount hsupply hremap
  rw [pageAfter_pageCount] at hrun
  exact ⟨after, hrun, hrange⟩

/-- The number of pages that meet `[va, va + size)`. -/
def rangePages (va size : Word) : ℕ := (va.toNat % 4096 + size.toNat - 1) / 4096 + 1

/-- Exactly the pages that meet `[va, va + size)` are mapped, to consecutive pages from `physaddr` on. -/
structure MapsExactly (before after : TableMemory) (pgdir physaddr va perms size : Word) : Prop where
  mapped : ∀ k < rangePages va size, ∃ entry,
    translation after pgdir (pageAfter (PGROUNDDOWN va) k) = some entry ∧
      PTE_ADDR entry = pageAfter physaddr k ∧ PTE_FLAGS entry = perms ||| PTE_P
  frame : ∀ va', (∀ k < rangePages va size, ¬SamePage va' (pageAfter (PGROUNDDOWN va) k)) →
    translation after pgdir va' = translation before pgdir va'

theorem pageCount_eq (hsize : size ≠ 0) (hfew : rangePages va size ≤ 2 ^ 36) : pageCount va size =
    if (va + size - 1).toNat % 4096 = 0 then rangePages va size - 1 else rangePages va size := by
  have hpos : size.toNat ≠ 0 := fun h ↦ hsize (eq_of_toNat_eq h)
  have hone : (1 : Word).toNat = 1 := by decide
  rw [rangePages] at hfew ⊢
  rw [pageCount, PGROUNDUP, PGROUNDDOWN, toNat_sub, toNat_and_page_mask, toNat_and_page_mask]
  simp only [PAGE_SIZE, toNat_add, toNat_sub, toNat_ofNat, hone]
  split <;> omega

theorem getLsbD_pageAfter_alias (physaddr : Word) :
    (pageAfter physaddr (2 ^ 36)).getLsbD 48 = !physaddr.getLsbD 48 := by
  rw [pageAfter, getLsbD, getLsbD, toNat_add, toNat_ofNat,
    Nat.testBit_mod_two_pow, Nat.testBit_eq_decide_div_mod_eq, Nat.testBit_eq_decide_div_mod_eq, ← decide_not]
  simp only [show 48 < 64 by decide, decide_true, Bool.true_and, decide_eq_decide]
  omega

theorem address_ne_alias (physaddr : Word) (hperms : PTE_ADDR perms = 0) :
    PTE_ADDR (pageAfter physaddr (2 ^ 36) ||| perms ||| PTE_P) ≠ physaddr := by
  intro hsame
  rw [PTE_ADDR_or, PTE_ADDR_or, hperms, show PTE_ADDR PTE_P = 0#64 by decide] at hsame
  have hbit := congrArg (getLsbD · 48) hsame
  have hmask : (~~~PTE_FLAGS_MASK).getLsbD 48 = true := by decide
  simp only [PTE_ADDR, getLsbD_or, getLsbD_and, getLsbD_pageAfter_alias, hmask] at hbit
  simp at hbit

theorem fits_of_entry {entry pa : Word} (haddr : PTE_ADDR entry = pa)
    (hflags : PTE_FLAGS entry = perms ||| PTE_P) : PTE_ADDR pa = pa ∧ PTE_ADDR perms = 0 := by
  subst haddr
  refine ⟨by rw [PTE_ADDR, PTE_ADDR, BitVec.and_assoc, BitVec.and_self], ?_⟩
  have hzero : PTE_ADDR (perms ||| PTE_P) = 0 := by
    rw [← hflags, PTE_FLAGS, PTE_ADDR, BitVec.and_assoc]
    exact BitVec.and_zero
  rwa [PTE_ADDR_or, show PTE_ADDR PTE_P = 0#64 by decide, BitVec.or_zero] at hzero

theorem MapsExactly.fits {before after : TableMemory} {physaddr : Word}
    (hexact : MapsExactly before after pgdir physaddr va perms size) : PTE_ADDR perms = 0 ∧
      ∀ k < rangePages va size, PTE_ADDR (pageAfter physaddr k) = pageAfter physaddr k := by
  have hfits : ∀ k < rangePages va size, _ ∧ PTE_ADDR perms = 0 := fun k hk ↦ by
    obtain ⟨entry, -, haddr, hflags⟩ := hexact.mapped k hk
    exact fits_of_entry haddr hflags
  exact ⟨(hfits 0 (Nat.succ_pos _)).2, fun k hk ↦ (hfits k hk).1⟩

theorem translation_congr (hpgdir : pgdir ≠ 0) {va' : Word} (hsame : SamePage va' va)
    (mem : TableMemory) : translation mem pgdir va' = translation mem pgdir va := by
  obtain ⟨hpath, hidx⟩ := indices_eq_iff.mpr hsame
  rw [translation_eq _ hpgdir, translation_eq _ hpgdir, hpath, hidx]

section Exact

variable {physaddr : Word} {after : Machine} {count : ℕ} (hpgdir : pgdir ≠ 0)
  (hmaps : MapsRange machine after pgdir address physaddr perms count)
include hpgdir hmaps

theorem MapsRange.translation_mapped (hi : i ≤ count) :
    translation after.memory pgdir (pageAfter address i) =
      some (pageAfter physaddr i ||| perms ||| PTE_P) := by
  rw [translation_eq _ hpgdir, hmaps.mapped i hi, leaf, or_and_self]
  rfl

theorem MapsRange.translation_fits (hperms : PTE_ADDR perms = 0) (hi : i ≤ count)
    (hpa : PTE_ADDR (pageAfter physaddr i) = pageAfter physaddr i) :
    ∃ entry, translation after.memory pgdir (pageAfter address i) = some entry ∧
      PTE_ADDR entry = pageAfter physaddr i ∧ PTE_FLAGS entry = perms ||| PTE_P := by
  refine ⟨_, hmaps.translation_mapped hpgdir hi, ?_⟩
  rw [← mappedEntry_eq hpa]
  exact ⟨PTE_ADDR_mappedEntry hpa hperms, PTE_FLAGS_mappedEntry hpa hperms⟩

theorem MapsRange.translation_frame (hother : ∀ i ≤ count, ¬SamePage va (pageAfter address i)) :
    translation after.memory pgdir va = translation machine.memory pgdir va := by
  rw [translation_eq _ hpgdir, translation_eq _ hpgdir, hmaps.frame _ rfl _ fun i hi ↦ ?_]
  rw [indices_eq_iff]
  exact hother i hi

end Exact

theorem mapPagesLoop_fuel (pgdir perms : Word) (extra count : ℕ) : ∀ (machine : Machine)
    (address physaddr : Word), mapPagesLoop pgdir perms (pageAfter address count) (count + 1 + extra)
      machine address physaddr =
      mapPagesLoop pgdir perms (pageAfter address count) (count + 1) machine address physaddr := by
  induction count with
  | zero =>
    intro machine address physaddr
    rw [add_right_comm, mapPagesLoop, mapPagesLoop]
    simp only [pageAfter_zero, if_true]
  | succ count ih =>
    intro machine address physaddr
    rw [add_right_comm, mapPagesLoop, mapPagesLoop]
    simp only [← pageAfter_succ, ih]

/-- **Mapping a range is exact** if its last byte is the first of a page, or if the page behind the
range, which is mapped too, was already mapped so; and if the pages are distinct. -/
theorem mapPages_exact_iff (hready : Ready machine pgdir) (physaddr perms : Word) (hsize : size ≠ 0) :
    (∀ extra, mapPagesLoop pgdir perms (PGROUNDUP (va + size - 1)) (pageCount va size + 1 + extra)
      machine (PGROUNDDOWN va) physaddr = mapPages machine pgdir physaddr va perms size) ∧
    ∀ outcome, mapPages machine pgdir physaddr va perms size = some outcome →
      (MapsExactly machine.memory outcome.1.memory pgdir physaddr va perms size ↔
        PTE_ADDR perms = 0 ∧
        (∀ k < rangePages va size, PTE_ADDR (pageAfter physaddr k) = pageAfter physaddr k) ∧
        (rangePages va size ≤ 2 ^ 36 ∧ (va + size - 1).toNat % 4096 = 0 ∨
        rangePages va size < 2 ^ 36 ∧
          translation machine.memory pgdir (pageAfter (PGROUNDDOWN va) (rangePages va size)) =
            some (pageAfter physaddr (rangePages va size) ||| perms ||| PTE_P))) := by
  refine ⟨fun extra ↦ ?_, fun outcome hrun ↦ ?_⟩
  · rw [← pageAfter_pageCount, mapPagesLoop_fuel, pageAfter_pageCount]
    rfl
  change mapPagesLoop pgdir perms _ (pageCount va size + 1) _ _ _ = _ at hrun
  rw [← pageAfter_pageCount] at hrun
  obtain ⟨hpgdir, mid, hfirst, hrest⟩ := maps_of_mapPagesLoop hready hrun
  have halias : SamePage (pageAfter (PGROUNDDOWN va) 0) (pageAfter (PGROUNDDOWN va) (2 ^ 36)) :=
    (samePage_pageAfter_iff _ _ _).mpr rfl
  have hpos : 0 < rangePages va size := Nat.succ_pos _
  rcases Nat.lt_or_ge (2 ^ 36) (rangePages va size) with hmany | hfew
  · refine iff_of_false (fun hexact ↦ ?_) (by omega)
    obtain ⟨first, hentry, hfirst, -⟩ := hexact.mapped 0 hpos
    obtain ⟨later, hlater, haddr, -⟩ := hexact.mapped _ hmany
    rw [translation_congr hpgdir halias, hlater, some.injEq] at hentry
    rw [← hentry, haddr, pageAfter_zero] at hfirst
    exact pageAfter_ne_last (by omega) (by omega) hfirst.symm
  have hcount := pageCount_eq hsize hfew
  by_cases haligned : (va + size - 1).toNat % 4096 = 0
  · rw [if_pos haligned] at hcount
    have hmaps := mapsRange_of_mapPagesLoop _ hready (by omega) hrun
    refine ⟨fun hexact ↦ ⟨hexact.fits.1, hexact.fits.2, .inl ⟨hfew, haligned⟩⟩, ?_⟩
    rintro ⟨hperms, hfits, -⟩
    exact ⟨fun k hk ↦ hmaps.translation_fits hpgdir hperms (by omega) (hfits k hk),
      fun va' hother ↦ hmaps.translation_frame hpgdir fun k hk ↦ hother k (by omega)⟩
  rw [if_neg haligned] at hcount
  rcases hfew.eq_or_lt with hall | hfew
  · -- the last round maps the first page again, to another address
    have hsucc : pageCount va size = 2 ^ 36 - 1 + 1 := by omega
    rw [hsucc, if_neg (pageAfter_ne_last (Nat.succ_pos _) (by omega)), ← pageAfter_succ] at hrest
    have hmaps := mapsRange_of_mapPagesLoop _ hfirst.ready (by omega) hrest
    have hlast := hmaps.translation_mapped hpgdir le_rfl
    rw [pageAfter_succ, pageAfter_succ, Nat.sub_add_cancel Nat.one_le_two_pow] at hlast
    refine iff_of_false (fun hexact ↦ ?_) (by omega)
    obtain ⟨first, hentry, hfirst, -⟩ := hexact.mapped 0 hpos
    rw [translation_congr hpgdir halias, hlast, some.injEq] at hentry
    rw [← hentry, pageAfter_zero] at hfirst
    exact address_ne_alias physaddr hexact.fits.1 hfirst
  · rw [hcount] at hrun
    have hmaps := mapsRange_of_mapPagesLoop _ hready hfew hrun
    have hbehind := hmaps.translation_mapped hpgdir le_rfl
    constructor
    · intro hexact
      rw [hexact.frame _ fun k hk ↦ ?_] at hbehind
      · exact ⟨hexact.fits.1, hexact.fits.2, .inr ⟨hfew, hbehind⟩⟩
      · rw [samePage_pageAfter_iff]
        omega
    · rintro ⟨hperms, hfits, ⟨-, h⟩ | ⟨-, hbefore⟩⟩
      · exact absurd h haligned
      · refine ⟨fun k hk ↦ hmaps.translation_fits hpgdir hperms hk.le (hfits k hk), ?_⟩
        intro va' hother
        by_cases hsame : SamePage va' (pageAfter (PGROUNDDOWN va) (rangePages va size))
        · rw [translation_congr hpgdir hsame, translation_congr hpgdir hsame, hbehind, hbefore]
        · refine hmaps.translation_frame hpgdir fun k hk ↦ ?_
          rcases hk.eq_or_lt with rfl | hlt
          · exact hsame
          · exact hother k hlt

theorem mapPages_exact_one :
    ∃ outcome, mapPages emptyTable 0x1000 0x5000 0x400000 PTE_RW 1 = some outcome ∧
      MapsExactly emptyTable.memory outcome.1.memory 0x1000 0x5000 0x400000 PTE_RW 1 := by
  have hret : (mapPages emptyTable 0x1000 0x5000 0x400000 PTE_RW 1).isSome := by decide +kernel
  obtain ⟨outcome, hrun⟩ := isSome_iff_exists.mp hret
  have hready := freshSupply_emptyTable.ready (distinct_emptyTable _)
  exact ⟨outcome, hrun, ((mapPages_exact_iff hready _ _ (by decide)).2 outcome hrun).mpr
    ⟨by decide, by decide, .inl (by decide)⟩⟩

/-- For two bytes of one page, the page behind it is mapped too. -/
theorem mapPages_not_exact :
    ∃ outcome, mapPages emptyTable 0x1000 0x5000 0x400000 PTE_RW 2 = some outcome ∧
      ¬MapsExactly emptyTable.memory outcome.1.memory 0x1000 0x5000 0x400000 PTE_RW 2 := by
  have hbehind : (mapPages emptyTable 0x1000 0x5000 0x400000 PTE_RW 2).bind
      (fun outcome ↦ translation outcome.1.memory 0x1000 0x401000) = some 0x6003 := by decide +kernel
  obtain ⟨outcome, hrun, hmapped⟩ := bind_eq_some_iff.mp hbehind
  refine ⟨outcome, hrun, fun hexact ↦ ?_⟩
  rw [hexact.frame 0x401000 (by unfold SamePage; decide)] at hmapped
  exact absurd hmapped (by decide)

/-- The translations of the lower half are the same. -/
def LowerSame (before after : TableMemory) (pgdir : Word) : Prop :=
  ∀ va, (P4DX va).val < 256 →
    leafAt after pgdir (path va) (PTX va) = leafAt before pgdir (path va) (PTX va)

def UPPER_HALF : ℕ := 0xFFFF800000000000

theorem P4DX_upper (hva : UPPER_HALF ≤ va.toNat) : 256 ≤ (P4DX va).val := by
  rw [P4DX, val_tableIndex]
  unfold UPPER_HALF at hva
  omega

/-- A range of the upper half whose last page is before the end of the address space. -/
structure UpperRange (va size : Word) : Prop where
  upper : UPPER_HALF ≤ (PGROUNDDOWN va).toNat
  bound : (PGROUNDDOWN va).toNat + 4096 * pageCount va size < 2 ^ 64

theorem UpperRange.P4DX_pageAfter (hrange : UpperRange va size)
    (hi : i ≤ pageCount va size) : 256 ≤ (P4DX (pageAfter (PGROUNDDOWN va) i)).val := by
  have hbound := hrange.bound
  have hupper := hrange.upper
  refine P4DX_upper ?_
  rw [pageAfter, toNat_add, toNat_ofNat]
  omega

theorem UpperRange.pageCount_lt (hrange : UpperRange va size) :
    pageCount va size < 2 ^ 36 := by
  have hbound := hrange.bound
  have hupper := hrange.upper
  unfold UPPER_HALF at hupper
  omega

theorem MapsRange.lowerSame {before after : Machine} {physaddr : Word}
    (hmaps : MapsRange before after pgdir (PGROUNDDOWN va) physaddr perms (pageCount va size))
    (hrange : UpperRange va size) : LowerSame before.memory after.memory pgdir := by
  intro va' hva'
  apply hmaps.frame _ rfl
  rintro i hi ⟨hpath, -⟩
  have hupper := hrange.P4DX_pageAfter hi
  have hsame := congrArg Fin.val (List.cons.inj hpath).1
  omega

theorem mapOrPanic_spec (hready : Ready machine pgdir) (hpgdir : pgdir ≠ 0) (physaddr : Word)
    (hperms : perms &&& PTE_U = 0) (hcount : pageCount va size < 2 ^ 36)
    (hsupply : 3 * (pageCount va size + 1) ≤ machine.supply.length) :
    ∃ after, mapOrPanic machine pgdir physaddr va perms size = some after ∧
      MapsRange machine after pgdir (PGROUNDDOWN va) physaddr perms (pageCount va size) := by
  obtain ⟨after, hrun, hmaps⟩ := mapPages_spec hready hpgdir physaddr hcount hsupply
    (fun h ↦ absurd hperms h)
  refine ⟨after, ?_, hmaps⟩
  rw [mapOrPanic, hrun]
  rfl

/-- Where the kernel is. -/
structure KernelLayout.Upper (layout : KernelLayout) : Prop where
  text : UpperRange layout.textStart (layout.textEnd - layout.textStart)
  rodata : UpperRange layout.rodataStart (layout.rodataEnd - layout.rodataStart)
  data : UpperRange layout.dataStart (layout.dataEnd - layout.dataStart)
  low : UpperRange (0 + layout.hhdmOffset) FOUR_GB
  high : UpperRange (layout.highestUserPhysAddr + layout.hhdmOffset)
    (layout.highestAddress - layout.highestUserPhysAddr)

/-- None of the five ranges goes round the address space. -/
structure KernelLayout.Bounded (layout : KernelLayout) : Prop where
  text : pageCount layout.textStart (layout.textEnd - layout.textStart) < 2 ^ 36
  rodata : pageCount layout.rodataStart (layout.rodataEnd - layout.rodataStart) < 2 ^ 36
  data : pageCount layout.dataStart (layout.dataEnd - layout.dataStart) < 2 ^ 36
  low : pageCount (0 + layout.hhdmOffset) FOUR_GB < 2 ^ 36
  high : pageCount (layout.highestUserPhysAddr + layout.hhdmOffset)
    (layout.highestAddress - layout.highestUserPhysAddr) < 2 ^ 36

theorem KernelLayout.Upper.bounded (hlayout : layout.Upper) :
    layout.Bounded :=
  ⟨hlayout.text.pageCount_lt, hlayout.rodata.pageCount_lt, hlayout.data.pageCount_lt,
    hlayout.low.pageCount_lt, hlayout.high.pageCount_lt⟩

def KernelLayout.tableBound (layout : KernelLayout) : ℕ :=
  3 * (pageCount layout.textStart (layout.textEnd - layout.textStart) + 1) +
  3 * (pageCount layout.rodataStart (layout.rodataEnd - layout.rodataStart) + 1) +
  3 * (pageCount layout.dataStart (layout.dataEnd - layout.dataStart) + 1) +
  3 * (pageCount (0 + layout.hhdmOffset) FOUR_GB + 1) +
  3 * (pageCount (layout.highestUserPhysAddr + layout.hhdmOffset)
    (layout.highestAddress - layout.highestUserPhysAddr) + 1)

theorem mapKernelAddressSpace_spec (hlayout : layout.Bounded) (hready : Ready machine pgdir)
    (hpgdir : pgdir ≠ 0) (hsupply : layout.tableBound ≤ machine.supply.length) :
    ∃ before after, mapKernelAddressSpace layout machine pgdir = some after ∧
      machine.supply.length ≤ after.supply.length + layout.tableBound ∧
      (layout.Upper → LowerSame machine.memory after.memory pgdir) ∧
      MapsRange before after pgdir (PGROUNDDOWN (layout.highestUserPhysAddr + layout.hhdmOffset))
        layout.highestUserPhysAddr (PTE_RW ||| PTE_NX)
        (pageCount (layout.highestUserPhysAddr + layout.hhdmOffset)
          (layout.highestAddress - layout.highestUserPhysAddr)) := by
  unfold KernelLayout.tableBound at hsupply ⊢
  obtain ⟨first, hfirst, hmaps₁⟩ := mapOrPanic_spec hready hpgdir
    (layout.textStart - layout.kernelMin + layout.kernelPhysMin) (show 0 &&& PTE_U = 0 by decide)
    hlayout.text (by omega)
  have hsupply₁ := hmaps₁.supply
  obtain ⟨second, hsecond, hmaps₂⟩ := mapOrPanic_spec hmaps₁.ready hpgdir
    (layout.rodataStart - layout.kernelMin + layout.kernelPhysMin)
    (show PTE_NX &&& PTE_U = 0 by decide) hlayout.rodata (by omega)
  have hsupply₂ := hmaps₂.supply
  obtain ⟨third, hthird, hmaps₃⟩ := mapOrPanic_spec hmaps₂.ready hpgdir
    (layout.dataStart - layout.kernelMin + layout.kernelPhysMin)
    (show (PTE_NX ||| PTE_RW) &&& PTE_U = 0 by decide) hlayout.data (by omega)
  have hsupply₃ := hmaps₃.supply
  obtain ⟨fourth, hfourth, hmaps₄⟩ := mapOrPanic_spec hmaps₃.ready hpgdir 0
    (show (PTE_RW ||| PTE_NX) &&& PTE_U = 0 by decide) hlayout.low (by omega)
  have hsupply₄ := hmaps₄.supply
  obtain ⟨after, hafter, hmaps₅⟩ := mapOrPanic_spec hmaps₄.ready hpgdir
    layout.highestUserPhysAddr (show (PTE_RW ||| PTE_NX) &&& PTE_U = 0 by decide) hlayout.high
    (by omega)
  have hsupply₅ := hmaps₅.supply
  refine ⟨fourth, after, ?_, by omega, fun hupper va hva ↦ ?_, hmaps₅⟩
  · simp only [mapKernelAddressSpace, bind_eq_bind, bind_eq_some_iff]
    exact ⟨first, hfirst, second, hsecond, third, hthird, fourth, hfourth, hafter⟩
  · rw [hmaps₅.lowerSame hupper.high va hva, hmaps₄.lowerSame hupper.low va hva,
      hmaps₃.lowerSame hupper.data va hva, hmaps₂.lowerSame hupper.rodata va hva,
      hmaps₁.lowerSame hupper.text va hva]

end DionysOS.Memory.Paging
