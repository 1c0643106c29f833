import DionysOS.Foundation.PartialMachine
import DionysOS.Foundation.RadixTable

/-!
# Mapping a page

`walk_page_directory` and `map_single_page` of the x86-64 `vmm.c`. A table is a page of 512 entries,
found by its physical address; `Phys2Virt` is a fixed shift and leaves no trace. `kzmalloc` hands out
the pages of a supply, filled with zeros. `none` is a panic, or an empty supply.

The walk links up to three new tables into the tree and changes no translation, and the last write
changes one: `mapSinglePage_spec`.
-/

namespace DionysOS.Memory.Paging

open Foundation.RadixTable Option List BitVec Prod

abbrev Word := BitVec 64
abbrev Index := Fin 512

/-- The entries of the tables, by the physical address of the table. -/
abbrev TableMemory := Word → Index → Word

def PTE_P : Word := 0x001#64
def PTE_RW : Word := 0x2#64
def PTE_U : Word := 0x004#64
def PTE_NX : Word := 1#64 <<< 63
def PTE_FLAGS_MASK : Word := 0xF000000000000FFF#64
def PAGE_DIR_MASK : Word := 0x1FF#64
def ALLOC : Word := 1#64
def USER_ALLOC : Word := 4#64
def KERN_SUCCESS : ℤ := 0

def PTE_ADDR (pte : Word) : Word := pte &&& ~~~PTE_FLAGS_MASK

def PTE_FLAGS (pte : Word) : Word := pte &&& PTE_FLAGS_MASK

def tableIndex (shift : ℕ) (va : Word) : Index :=
  ⟨((va >>> shift) &&& PAGE_DIR_MASK).toNat, by
    rw [BitVec.toNat_and]
    exact Nat.lt_of_le_of_lt Nat.and_le_right (by decide)⟩

def P4DX (va : Word) : Index := tableIndex 39 va
def PUDX (va : Word) : Index := tableIndex 30 va
def PMDX (va : Word) : Index := tableIndex 21 va
def PTX (va : Word) : Index := tableIndex 12 va

/-- The tables, and the pages that `kzmalloc` will return. -/
structure Machine where
  memory : TableMemory
  supply : List Word

def newEntry (page flags : Word) : Word :=
  let entry := page ||| (PTE_P ||| PTE_RW)
  if flags &&& USER_ALLOC ≠ 0 then entry ||| PTE_U else entry

/-- One level of the walk: the table that the entry refers to, which may have to be allocated.
`none` inside is a walk that ends here. -/
def descend (flags : Word) (machine : Machine) (table : Word) (index : Index) :
    Option (Machine × Option Word) :=
  if machine.memory table index &&& PTE_P = 0 then
    if flags &&& ALLOC ≠ 0 then
      match machine.supply with
      | [] => none
      | page :: supply =>
          let memory := link machine.memory table index (newEntry page flags) 0 page
          some (⟨memory, supply⟩, some (PTE_ADDR (memory table index)))
    else some (machine, none)
  else some (machine, some (PTE_ADDR (machine.memory table index)))

/-- `walk_page_directory`: the table and index of the entry. -/
def walkPageDirectory (machine : Machine) (pgdir va flags : Word) :
    Option (Machine × Option (Word × Index)) :=
  if pgdir = 0 then none
  else do
    let (machine, pud) ← descend flags machine pgdir (P4DX va)
    match pud with
    | none => some (machine, none)
    | some pud => do
        let (machine, pmd) ← descend flags machine pud (PUDX va)
        match pmd with
        | none => some (machine, none)
        | some pmd => do
            let (machine, pte) ← descend flags machine pmd (PMDX va)
            match pte with
            | none => some (machine, none)
            | some pte => some (machine, some (pte, PTX va))

def mapSinglePage (machine : Machine) (pgdir physaddr va perms : Word) : Option (Machine × ℤ) := do
  let flags := if perms &&& PTE_U ≠ 0 then ALLOC ||| USER_ALLOC else ALLOC
  let (machine, pte) ← walkPageDirectory machine pgdir va flags
  match pte with
  | none => some (machine, -1)
  | some (table, index) =>
      if perms &&& PTE_U ≠ 0 ∧ machine.memory table index &&& PTE_P ≠ 0 then none
      else
        let entry := physaddr ||| perms ||| PTE_P
        let entry := if perms &&& PTE_NX = 0 then entry &&& ~~~PTE_NX else entry
        some ({ machine with memory := store machine.memory table index entry }, KERN_SUCCESS)

/-- What an address is mapped to: the entry that the walk without allocation finds, if it is
present. -/
def translation (memory : TableMemory) (pgdir va : Word) : Option Word := do
  let (machine, pte) ← walkPageDirectory ⟨memory, []⟩ pgdir va 0
  let (table, index) ← pte
  if machine.memory table index &&& PTE_P = 0 then none else some (machine.memory table index)

def next (entry : Word) : Option Word :=
  if entry &&& PTE_P = 0 then none else some (PTE_ADDR entry)

def leaf (entry : Word) : Option Word := if entry &&& PTE_P = 0 then none else some entry

section Bits

variable {page flags pa perms mask : Word}

theorem or_and_self (a mask : Word) : (a ||| mask) &&& mask = mask := by
  refine eq_of_getLsbD_eq fun i _ ↦ ?_
  rw [getLsbD_and, getLsbD_or]
  cases a.getLsbD i <;> cases mask.getLsbD i <;> rfl

theorem and_not_of_and_eq_zero {a : Word} (h : a &&& mask = 0) : a &&& ~~~mask = a := by
  have hsplit : a &&& mask ||| a &&& ~~~mask = a := by
    rw [← and_or_distrib_left, or_not_self, and_allOnes]
  rw [h] at hsplit
  simpa using hsplit

theorem PTE_ADDR_or (a b : Word) : PTE_ADDR (a ||| b) = PTE_ADDR a ||| PTE_ADDR b :=
  and_or_distrib_right

theorem PTE_FLAGS_or (a b : Word) : PTE_FLAGS (a ||| b) = PTE_FLAGS a ||| PTE_FLAGS b :=
  and_or_distrib_right

theorem PTE_ADDR_of_aligned (haligned : pa &&& 0xFFF#64 = 0) (hbound : pa.toNat < 2 ^ 52) :
    PTE_ADDR pa = pa := by
  have hmask : PTE_FLAGS_MASK = 0xFFF#64 ||| allOnes 64 <<< 60 := by decide
  have hhigh : pa >>> 60 = 0 := by
    refine eq_of_toNat_eq ?_
    rw [toNat_ushiftRight, Nat.shiftRight_eq_div_pow, Nat.div_eq_of_lt (by omega)]
    rfl
  refine and_not_of_and_eq_zero ?_
  rw [hmask, and_or_distrib_left, haligned, ← shiftLeft_ushiftRight, hhigh]
  decide

theorem PTE_FLAGS_of_address (hpa : PTE_ADDR pa = pa) : PTE_FLAGS pa = 0 := by
  rw [← hpa, PTE_FLAGS, PTE_ADDR, BitVec.and_assoc]
  simp

theorem PTE_FLAGS_of_flags (hperms : PTE_ADDR perms = 0) : PTE_FLAGS perms = perms := by
  have hnot := and_not_of_and_eq_zero hperms
  rwa [BitVec.not_not] at hnot

theorem PTE_ADDR_newEntry (hpage : PTE_ADDR page = page) (flags : Word) :
    PTE_ADDR (newEntry page flags) = page := by
  have hflags : PTE_ADDR (PTE_P ||| PTE_RW) = 0 := by decide
  have huser : PTE_ADDR PTE_U = 0 := by decide
  unfold newEntry
  split <;> simp [PTE_ADDR_or, hpage, hflags, huser]

theorem newEntry_present (page flags : Word) : newEntry page flags &&& PTE_P ≠ 0 := by
  have hbase : (page ||| (PTE_P ||| PTE_RW)) &&& PTE_P = PTE_P := by
    rw [BitVec.or_comm PTE_P, ← BitVec.or_assoc, or_and_self]
  have huser : PTE_U &&& PTE_P = 0 := by decide
  have hne : PTE_P ≠ 0 := by decide
  unfold newEntry
  split
  · rw [and_or_distrib_right, hbase, huser]
    decide
  · rw [hbase]
    exact hne

theorem next_newEntry (hpage : PTE_ADDR page = page) (flags : Word) :
    next (newEntry page flags) = some page := by
  rw [next, if_neg (newEntry_present page flags), PTE_ADDR_newEntry hpage]

theorem next_zero : next 0 = none := by decide

/-- The entry that `map_single_page` writes. -/
def mappedEntry (pa perms : Word) : Word :=
  if perms &&& PTE_NX = 0 then (pa ||| perms ||| PTE_P) &&& ~~~PTE_NX else pa ||| perms ||| PTE_P

section

variable (hpa : PTE_ADDR pa = pa)
include hpa

theorem mappedEntry_eq (perms : Word) :
    mappedEntry pa perms = pa ||| perms ||| PTE_P := by
  unfold mappedEntry
  split
  · rename_i hperms
    refine and_not_of_and_eq_zero ?_
    have hpage : pa &&& PTE_NX = 0 := by
      have hmask : PTE_NX = PTE_FLAGS_MASK &&& PTE_NX := by decide
      have hflags : pa &&& PTE_FLAGS_MASK = 0 := PTE_FLAGS_of_address hpa
      rw [hmask, ← BitVec.and_assoc, hflags]
      simp
    have hpresent : PTE_P &&& PTE_NX = 0 := by decide
    rw [and_or_distrib_right, and_or_distrib_right, hpage, hperms, hpresent]
    decide
  · rfl

theorem leaf_mappedEntry (perms : Word) :
    leaf (mappedEntry pa perms) = some (mappedEntry pa perms) := by
  have hne : PTE_P ≠ 0 := by decide
  rw [leaf, mappedEntry_eq hpa, or_and_self, if_neg hne]

theorem PTE_ADDR_mappedEntry (hperms : PTE_ADDR perms = 0) :
    PTE_ADDR (mappedEntry pa perms) = pa := by
  have hpresent : PTE_ADDR PTE_P = 0 := by decide
  rw [mappedEntry_eq hpa, PTE_ADDR_or, PTE_ADDR_or, hpa, hperms, hpresent]
  simp

theorem PTE_FLAGS_mappedEntry (hperms : PTE_ADDR perms = 0) :
    PTE_FLAGS (mappedEntry pa perms) = perms ||| PTE_P := by
  have hpresent : PTE_FLAGS PTE_P = PTE_P := by decide
  rw [mappedEntry_eq hpa, PTE_FLAGS_or, PTE_FLAGS_or, PTE_FLAGS_of_address hpa,
    PTE_FLAGS_of_flags hperms, hpresent]
  simp

end

end Bits

section Indices

variable {va va' : Word}

theorem val_tableIndex (shift : ℕ) (va : Word) :
    (tableIndex shift va).val = va.toNat / 2 ^ shift % 2 ^ 9 := by
  have hmask : PAGE_DIR_MASK.toNat = 2 ^ 9 - 1 := by decide
  show ((va >>> shift) &&& PAGE_DIR_MASK).toNat = _
  rw [toNat_and, hmask, Nat.and_two_pow_sub_one_eq_mod, toNat_ushiftRight,
    Nat.shiftRight_eq_div_pow]

def path (va : Word) : List Index := [P4DX va, PUDX va, PMDX va]

def SamePage (va va' : Word) : Prop := va.toNat / 2 ^ 12 % 2 ^ 36 = va'.toNat / 2 ^ 12 % 2 ^ 36

theorem indices_eq_iff : path va' = path va ∧ PTX va' = PTX va ↔ SamePage va' va := by
  simp only [path, cons.injEq, and_true, P4DX, PUDX, PMDX, PTX, Fin.ext_iff, val_tableIndex, SamePage]
  omega

theorem extract_eq_of_indices (hpath : path va' = path va) (hidx : PTX va' = PTX va) :
    va'.extractLsb' 12 36 = va.extractLsb' 12 36 := by
  apply eq_of_toNat_eq
  rw [extractLsb'_toNat, extractLsb'_toNat, Nat.shiftRight_eq_div_pow,
    Nat.shiftRight_eq_div_pow]
  exact indices_eq_iff.mp ⟨hpath, hidx⟩

end Indices

structure Ready (machine : Machine) (pgdir : Word) : Prop where
  distinct : TablesDistinct next machine.memory pgdir 3
  nodup : machine.supply.Nodup
  address : ∀ page ∈ machine.supply, PTE_ADDR page = page
  fresh : ∀ page ∈ machine.supply, ∀ path : List Index, path.length ≤ 3 →
    reach next machine.memory pgdir path ≠ some page

def leafAt (memory : TableMemory) (pgdir : Word) (path : List Index) (index : Index) : Option Word :=
  (entryAt next memory pgdir path index).bind leaf

section Walk

variable {machine after : Machine} {pgdir table flags va : Word} {index idx : Index}

theorem descend_zero (machine : Machine) (table : Word) (idx : Index) :
    descend 0 machine table idx = some (machine, next (machine.memory table idx)) := by
  unfold descend next
  split <;> rfl

theorem translation_eq (mem : TableMemory) (hpgdir : pgdir ≠ 0) (va : Word) :
    translation mem pgdir va = leafAt mem pgdir (path va) (PTX va) := by
  simp only [translation, walkPageDirectory, if_neg hpgdir, descend_zero, leafAt, entryAt, path,
    reach, bind_eq_bind, bind_some]
  cases next (mem pgdir (P4DX va)) with
  | none => rfl
  | some pud =>
    simp only [bind_some]
    cases next (mem pud (PUDX va)) with
    | none => rfl
    | some pmd =>
      simp only [bind_some]
      cases next (mem pmd (PMDX va)) with
      | none => rfl
      | some pte => rfl

theorem descend_spec {path : List Index} {child : Option Word} (hready : Ready machine pgdir)
    (hreach : reach next machine.memory pgdir path = some table) (hlen : path.length < 3)
    (hflags : flags &&& ALLOC ≠ 0)
    (hdescend : descend flags machine table index = some (after, child)) :
    ∃ page, child = some page ∧ Ready after pgdir ∧
      reach next after.memory pgdir (path ++ [index]) = some page ∧
      ∀ path' : List Index, path'.length = 3 → ∀ index',
        leafAt after.memory pgdir path' index' = leafAt machine.memory pgdir path' index' := by
  unfold descend at hdescend
  by_cases hpresent : machine.memory table index &&& PTE_P = 0
  · have habsent : next (machine.memory table index) = none := by rw [next, if_pos hpresent]
    rw [if_pos hpresent, if_pos hflags] at hdescend
    cases hsupply : machine.supply with
    | nil => simp [hsupply] at hdescend
    | cons page supply =>
      have hmem : page ∈ machine.supply := by simp [hsupply]
      have hpage := hready.address page hmem
      have hfresh := hready.fresh page hmem
      have hentry := next_newEntry hpage flags
      have hlink := fun {path' : List Index} (hlen' : path'.length ≤ 3) ↦
        reach_link hlen hreach habsent hfresh hentry next_zero hready.distinct hlen'
      simp only [hsupply, some.injEq, mk.injEq] at hdescend
      obtain ⟨rfl, rfl⟩ := hdescend
      refine ⟨page, ?_, ⟨?_, ?_, ?_, ?_⟩, ?_, fun path' hlen' index' ↦ ?_⟩
      · rw [link, store_self, PTE_ADDR_newEntry hpage]
      · exact tablesDistinct_link hlen hreach habsent hfresh hentry next_zero hready.distinct
      · have hnodup := hready.nodup
        rw [hsupply] at hnodup
        exact (nodup_cons.mp hnodup).2
      · exact fun other hother ↦ hready.address other (by simp [hsupply, hother])
      · intro other hother path' hlen'
        rw [hlink hlen']
        split
        · intro hsame
          cases hsame
          have hnodup := hready.nodup
          rw [hsupply] at hnodup
          exact (nodup_cons.mp hnodup).1 hother
        · exact hready.fresh other (by simp [hsupply, hother]) path' hlen'
      · have hshort : (path ++ [index]).length ≤ 3 := by
          rw [length_append, length_singleton]
          exact hlen
        rw [hlink hshort, if_pos rfl]
      · have hother : path' ≠ path := by
          rintro rfl
          omega
        rw [leafAt, leafAt, entryAt_link hlen hreach habsent hfresh hentry next_zero
          hready.distinct hlen'.le index' (.inl hother)]
        split
        · -- The entry is in the new table, which the path did not reach before.
          rename_i hnew
          rw [hnew, entryAt, reach_concat hreach, habsent]
          rfl
        · rfl
  · have hnext : next (machine.memory table index) = some (PTE_ADDR (machine.memory table index)) := by
      rw [next, if_neg hpresent]
    rw [if_neg hpresent] at hdescend
    obtain ⟨rfl, rfl⟩ := hdescend
    exact ⟨_, rfl, hready, (reach_concat hreach index).trans hnext, fun _ _ _ ↦ rfl⟩

theorem walkPageDirectory_spec {pte : Option (Word × Index)} (hready : Ready machine pgdir)
    (hflags : flags &&& ALLOC ≠ 0)
    (hwalk : walkPageDirectory machine pgdir va flags = some (after, pte)) :
    pgdir ≠ 0 ∧ ∃ page, pte = some (page, PTX va) ∧ Ready after pgdir ∧
      reach next after.memory pgdir (path va) = some page ∧
      ∀ path' : List Index, path'.length = 3 → ∀ index',
        leafAt after.memory pgdir path' index' = leafAt machine.memory pgdir path' index' := by
  obtain ⟨hpgdir, hwalk⟩ := ite_none_left_eq_some.mp hwalk
  simp only [bind_eq_bind, bind_eq_some_iff] at hwalk
  obtain ⟨⟨first, pud?⟩, hfirst, hwalk⟩ := hwalk
  obtain ⟨pud, rfl, hready₁, hreach₁, hleaf₁⟩ := descend_spec hready reach_nil (by decide) hflags hfirst
  simp only [bind_eq_some_iff] at hwalk
  obtain ⟨⟨second, pmd?⟩, hsecond, hwalk⟩ := hwalk
  obtain ⟨pmd, rfl, hready₂, hreach₂, hleaf₂⟩ :=
    descend_spec hready₁ hreach₁ (by simp) hflags hsecond
  simp only [bind_eq_some_iff] at hwalk
  obtain ⟨⟨third, pte?⟩, hthird, hwalk⟩ := hwalk
  obtain ⟨page, rfl, hready₃, hreach₃, hleaf₃⟩ :=
    descend_spec hready₂ hreach₂ (by simp) hflags hthird
  obtain ⟨rfl, rfl⟩ := hwalk
  refine ⟨hpgdir, page, rfl, hready₃, hreach₃, fun path' hlen' index' ↦ ?_⟩
  rw [hleaf₃ path' hlen', hleaf₂ path' hlen', hleaf₁ path' hlen']

theorem descend_returns (flags : Word) (machine : Machine) (table : Word) (idx : Index)
    (hsupply : 1 ≤ machine.supply.length) : ∃ after child,
      descend flags machine table idx = some (after, child) ∧
        machine.supply.length ≤ after.supply.length + 1 := by
  unfold descend
  split
  · split
    · cases hpages : machine.supply with
      | nil => simp [hpages] at hsupply
      | cons page supply => exact ⟨_, _, rfl, le_refl _⟩
    · exact ⟨_, _, rfl, Nat.le_succ _⟩
  · exact ⟨_, _, rfl, Nat.le_succ _⟩

theorem walkPageDirectory_returns (hpgdir : pgdir ≠ 0) (flags va : Word)
    (hsupply : 3 ≤ machine.supply.length) : ∃ after pte,
      walkPageDirectory machine pgdir va flags = some (after, pte) ∧
        machine.supply.length ≤ after.supply.length + 3 := by
  simp only [walkPageDirectory, if_neg hpgdir, bind_eq_bind]
  obtain ⟨first, pud, hfirst, hlen₁⟩ := descend_returns flags machine pgdir (P4DX va) (by omega)
  rw [hfirst, bind_some]
  cases pud with
  | none => exact ⟨first, none, rfl, by omega⟩
  | some pud =>
    obtain ⟨second, pmd, hsecond, hlen₂⟩ :=
      descend_returns flags first pud (PUDX va) (by omega)
    simp only [hsecond, bind_some]
    cases pmd with
    | none => exact ⟨second, none, rfl, by omega⟩
    | some pmd =>
      obtain ⟨third, pte, hthird, hlen₃⟩ :=
        descend_returns flags second pmd (PMDX va) (by omega)
      simp only [hthird, bind_some]
      cases pte with
      | none => exact ⟨_, _, rfl, by omega⟩
      | some pte => exact ⟨_, _, rfl, by omega⟩

theorem ready_store {page : Word} {steps : List Index} (hready : Ready machine pgdir)
    (hreach : reach next machine.memory pgdir steps = some page) (hlen : steps.length = 3)
    (entry : Word) : Ready { machine with memory := store machine.memory page idx entry } pgdir := by
  have hsame : ∀ steps' : List Index, steps'.length ≤ 3 →
      reach next (store machine.memory page idx entry) pgdir steps' =
        reach next machine.memory pgdir steps' :=
    fun _ h ↦ reach_store_last hready.distinct hlen hreach entry h
  refine ⟨fun steps₁ steps₂ table h₁ h₂ hreach₁ hreach₂ ↦ ?_, hready.nodup, hready.address,
    fun page' hpage' steps' hlen' ↦ ?_⟩
  · rw [hsame steps₁ h₁] at hreach₁
    rw [hsame steps₂ h₂] at hreach₂
    exact hready.distinct h₁ h₂ hreach₁ hreach₂
  · rw [hsame steps' hlen']
    exact hready.fresh page' hpage' steps' hlen'

/-- What a walk and the write to the entry that it found do. -/
structure Maps (before after : Machine) (pgdir va entry : Word) : Prop where
  ready : Ready after pgdir
  supply : before.supply.length ≤ after.supply.length + 3
  leaf : ∀ steps : List Index, steps.length = 3 → ∀ index,
    leafAt after.memory pgdir steps index =
      if steps = path va ∧ index = PTX va then leaf entry else leafAt before.memory pgdir steps index

theorem maps_of_walk {walked : Machine} {pte : Option (Word × Index)} (hready : Ready machine pgdir)
    (hwalk : walkPageDirectory machine pgdir va
      (if perms &&& PTE_U ≠ 0 then ALLOC ||| USER_ALLOC else ALLOC) = some (walked, pte))
    (entry : Word) : pgdir ≠ 0 ∧ ∃ page, pte = some (page, PTX va) ∧
      leaf (walked.memory page (PTX va)) = leafAt machine.memory pgdir (path va) (PTX va) ∧
      Maps machine { walked with memory := store walked.memory page (PTX va) entry } pgdir va entry := by
  have hflags : (if perms &&& PTE_U ≠ 0 then ALLOC ||| USER_ALLOC else ALLOC) &&& ALLOC ≠ 0 := by
    split <;> decide
  obtain ⟨hpgdir, page, rfl, hwalked, hreach, hleaf⟩ := walkPageDirectory_spec hready hflags hwalk
  refine ⟨hpgdir, page, rfl, ?_, ready_store hwalked hreach rfl _, ?_, fun steps hsteps index ↦ ?_⟩
  · rw [← hleaf (path va) rfl, leafAt, entryAt, hreach]
    rfl
  · -- a walk takes three pages at most
    rcases lt_or_ge machine.supply.length 3 with hfew | hmany
    · exact Nat.le_add_left_of_le hfew.le
    · obtain ⟨after, pte, hret, hlen⟩ := walkPageDirectory_returns hpgdir _ va hmany
      cases hwalk.symm.trans hret
      exact hlen
  · rw [leafAt, entryAt_store_last hwalked.distinct rfl hreach _ hsteps.le]
    split
    · rfl
    · exact hleaf steps hsteps index

end Walk

/-- What `kzmalloc` promises about the pages that it will return: they are pages, different ones,
and none of them is a table. -/
structure FreshSupply (machine : Machine) (pgdir : Word) : Prop where
  nodup : machine.supply.Nodup
  aligned : ∀ page ∈ machine.supply, page &&& 0xFFF#64 = 0 ∧ page.toNat < 2 ^ 52
  notTable : ∀ page ∈ machine.supply, ∀ path : List Index, path.length ≤ 3 →
    reach next machine.memory pgdir path ≠ some page

theorem FreshSupply.ready {machine : Machine} {pgdir : Word} (hsupply : FreshSupply machine pgdir)
    (hdist : TablesDistinct next machine.memory pgdir 3) : Ready machine pgdir where
  distinct := hdist
  nodup := hsupply.nodup
  address page hpage :=
    PTE_ADDR_of_aligned (hsupply.aligned page hpage).1 (hsupply.aligned page hpage).2
  fresh := hsupply.notTable

/-- **Mapping a page.** If `map_single_page` does not panic, then the address is mapped to the
physical page with the permissions, and every other address to what it was mapped to. -/
theorem mapSinglePage_spec {machine after : Machine} {pgdir pa va perms : Word} {result : ℤ}
    (hdistinct : TablesDistinct next machine.memory pgdir 3) (hsupply : FreshSupply machine pgdir)
    (haligned : pa &&& 0xFFF#64 = 0) (hbound : pa.toNat < 2 ^ 52) (hperms : PTE_ADDR perms = 0)
    (hcall : mapSinglePage machine pgdir pa va perms = some (after, result)) :
    result = KERN_SUCCESS ∧
      (∃ entry, translation after.memory pgdir va = some entry ∧ PTE_ADDR entry = pa ∧
        PTE_FLAGS entry = perms ||| PTE_P) ∧
      ∀ va', va'.extractLsb' 12 36 ≠ va.extractLsb' 12 36 →
        translation after.memory pgdir va' = translation machine.memory pgdir va' := by
  have hpa := PTE_ADDR_of_aligned haligned hbound
  have hready := hsupply.ready hdistinct
  simp only [mapSinglePage, bind_eq_bind, bind_eq_some_iff] at hcall
  obtain ⟨⟨walked, pte⟩, hwalk, hcall⟩ := hcall
  obtain ⟨hpgdir, page, rfl, -, hmaps⟩ := maps_of_walk hready hwalk (mappedEntry pa perms)
  simp only at hcall
  split at hcall
  · cases hcall
  · simp only [some.injEq, mk.injEq] at hcall
    obtain ⟨rfl, rfl⟩ := hcall
    refine ⟨rfl, ⟨mappedEntry pa perms, ?_, PTE_ADDR_mappedEntry hpa hperms,
      PTE_FLAGS_mappedEntry hpa hperms⟩, fun va' hva' ↦ ?_⟩
    · rw [translation_eq _ hpgdir]
      exact (hmaps.leaf (path va) rfl _).trans ((if_pos ⟨rfl, rfl⟩).trans (leaf_mappedEntry hpa perms))
    · rw [translation_eq _ hpgdir, translation_eq _ hpgdir]
      exact (hmaps.leaf (path va') rfl _).trans
        (if_neg fun h ↦ hva' (extract_eq_of_indices h.1 h.2))

/-- An empty top level, and three pages for `kzmalloc`. -/
def emptyTable : Machine := ⟨fun _ _ ↦ 0, [0x2000, 0x3000, 0x4000]⟩

theorem reach_emptyTable {root page : Word} : ∀ {path : List Index},
    reach next emptyTable.memory root path = some page → path = [] ∧ page = root
  | [], h => ⟨rfl, (some.inj h).symm⟩
  | idx :: path, h => by
      rw [reach, show next (emptyTable.memory root idx) = none from next_zero] at h
      cases h

theorem distinct_emptyTable (pgdir : Word) : TablesDistinct next emptyTable.memory pgdir 3 :=
  fun _ _ _ _ _ h h' ↦ (reach_emptyTable h).1.trans (reach_emptyTable h').1.symm

theorem freshSupply_emptyTable : FreshSupply emptyTable 0x1000 := by
  have hpages : ∀ page ∈ emptyTable.supply,
      (page &&& 0xFFF#64 = 0 ∧ page.toNat < 2 ^ 52) ∧ page ≠ 0x1000 := by
    intro page hpage
    simp only [emptyTable, mem_cons, not_mem_nil, or_false] at hpage
    rcases hpage with rfl | rfl | rfl <;> exact ⟨⟨by decide, by decide⟩, by decide⟩
  exact ⟨by decide, fun page hpage ↦ (hpages page hpage).1,
    fun page hpage _ _ h ↦ (hpages page hpage).2 (reach_emptyTable h).2⟩

theorem mapSinglePage_emptyTable : ∃ after,
    mapSinglePage emptyTable 0x1000 0x5000 0x400000 PTE_RW = some (after, KERN_SUCCESS) ∧
      ∃ entry, translation after.memory 0x1000 0x400000 = some entry ∧ PTE_ADDR entry = 0x5000 ∧
        PTE_FLAGS entry = PTE_RW ||| PTE_P := by
  have hret : (mapSinglePage emptyTable 0x1000 0x5000 0x400000 PTE_RW).isSome = true := by
    decide +kernel
  obtain ⟨⟨after, result⟩, hcall⟩ := isSome_iff_exists.mp hret
  obtain ⟨rfl, hmapped, -⟩ := mapSinglePage_spec (distinct_emptyTable _) freshSupply_emptyTable
    (by decide) (by decide) (by decide) hcall
  exact ⟨after, hcall, hmapped⟩

section Runs

open Foundation.PartialMachine

structure Mapping where
  physaddr : Word
  va : Word
  perms : Word

def mapStep (pgdir : Word) (machine : Machine) (mapping : Mapping) : Option (Machine × ℤ) :=
  mapSinglePage machine pgdir mapping.physaddr mapping.va mapping.perms

instance : DecidableRel SamePage := fun _ _ ↦ instDecidableEqNat ..

/-- The address space with a new entry for one page. -/
def spaceStep (space : Word → Option Word) (mapping : Mapping) : (Word → Option Word) × ℤ :=
  (fun va ↦ if SamePage va mapping.va then some (mappedEntry mapping.physaddr mapping.perms)
    else space va, KERN_SUCCESS)

/-- The physical address is one of a page, and no page is in the way of a user page. -/
def Mappable (pgdir : Word) (machine : Machine) (mapping : Mapping) : Prop :=
  PTE_ADDR mapping.physaddr = mapping.physaddr ∧
    (mapping.perms &&& PTE_U ≠ 0 → translation machine.memory pgdir mapping.va = none)

/-- The tables hold the address space, and there are pages for the tables of `budget` calls. -/
def Spans (pgdir : Word) (budget : ℕ) (machine : Machine) (space : Word → Option Word) : Prop :=
  Ready machine pgdir ∧ 3 * budget ≤ machine.supply.length ∧ translation machine.memory pgdir = space

variable {pgdir : Word} {machine : Machine} {space : Word → Option Word}

theorem Spans.step (hpgdir : pgdir ≠ 0) {budget : ℕ} {mapping : Mapping}
    (hspans : Spans pgdir (budget + 1) machine space) (hmappable : Mappable pgdir machine mapping) :
    ∃ after, mapStep pgdir machine mapping = some (after, (spaceStep space mapping).2) ∧
      Spans pgdir budget after (spaceStep space mapping).1 := by
  obtain ⟨hready, hsupply, rfl⟩ := hspans
  obtain ⟨hpa, hremap⟩ := hmappable
  obtain ⟨walked, pte, hwalk, -⟩ := walkPageDirectory_returns hpgdir
    (if mapping.perms &&& PTE_U ≠ 0 then ALLOC ||| USER_ALLOC else ALLOC) mapping.va
    (show 3 ≤ machine.supply.length by omega)
  obtain ⟨-, page, rfl, hleaf, hmaps⟩ :=
    maps_of_walk hready hwalk (mappedEntry mapping.physaddr mapping.perms)
  have hleft := hmaps.supply
  have hfree : ¬ (mapping.perms &&& PTE_U ≠ 0 ∧
      walked.memory page (PTX mapping.va) &&& PTE_P ≠ 0) := by
    rintro ⟨huser, hpresent⟩
    rw [← translation_eq _ hpgdir, hremap huser, leaf, if_neg hpresent] at hleaf
    cases hleaf
  refine ⟨_, ?_, hmaps.ready, by omega, ?_⟩
  · simp only [mapStep, mapSinglePage, hwalk, bind_eq_bind, bind_some, if_neg hfree]
    rfl
  · funext va
    simp only [translation_eq _ hpgdir, hmaps.leaf (path va) rfl, leaf_mappedEntry hpa, spaceStep,
      indices_eq_iff]

/-- **Page tables are a map.** With enough pages for tables, a run of `map_single_page` maps each
page to what was last asked for it, and all other pages to what they were mapped to before. -/
theorem run_spans (hpgdir : pgdir ≠ 0) {mappings : List Mapping}
    (hspans : Spans pgdir mappings.length machine space)
    (hguarded : Guarded (mapStep pgdir) (Mappable pgdir) machine mappings) :
    ∃ final, run (mapStep pgdir) machine mappings =
        some (final, (runPure spaceStep space mappings).2) ∧
      Spans pgdir 0 final (runPure spaceStep space mappings).1 :=
  @run_refines _ _ _ _ (mapStep pgdir) spaceStep (Mappable pgdir) (Spans pgdir)
    (fun _ _ _ _ ↦ Spans.step hpgdir) mappings 0 machine space hspans hguarded

theorem run_spans_emptyTable : ∃ final,
    run (mapStep 0x1000) emptyTable [⟨0x5000, 0x400000, PTE_U⟩] = some (final, [KERN_SUCCESS]) ∧
      (translation final.memory 0x1000 0x400123).map PTE_ADDR = some 0x5000 := by
  obtain ⟨final, hrun, -, -, hspace⟩ := @run_spans 0x1000 emptyTable _ (by decide)
    [⟨0x5000, 0x400000, PTE_U⟩]
    ⟨freshSupply_emptyTable.ready (distinct_emptyTable _), by decide, rfl⟩
    ⟨⟨by decide, fun _ ↦ by decide +kernel⟩, fun _ _ _ ↦ trivial⟩
  exact ⟨final, hrun, by rw [hspace]; decide +kernel⟩

end Runs

end DionysOS.Memory.Paging
