import DionysOS.Memory.PmmConservation
import DionysOS.Memory.PmmMapped

/-!
# Every block is filed under its own order

`buddy_alloc` throws a block away when it is filed under a higher key than its order. A comment in
the source reports such a block. `run_filedByOrder` shows that the code of the allocator does not
produce one: with trees that are multimaps and a table that is a map, no run from `phys_init` on any
memory map reaches a state in which the branch would be taken.

The theorem is about `mappedStep`. `physAlloc_mapped` and `physDealloc_mapped` say that a call of
the allocator is such a step whenever the table finds what the map would find.
-/

namespace DionysOS.Memory.Pmm

open DataStructures Option
open DataStructures.SinglyLinkedList (NodeStore)
open Foundation.PartialMachine

section Simulation

variable {state after : State} {used : List Ptr} {req zone addr : ℕ} {listNode : Ptr}

variable {block : Ptr}

theorem insertUsed_eq_withTable {alloc : Allocation}
    (hinsert : insertUsed state block alloc = some after) :
    after = state.withTable after.lists after.usedBuddyHashTable := by
  obtain ⟨_, -, heq⟩ := bind_eq_some_iff.mp hinsert
  cases heq
  rfl

theorem buddyAlloc_mapped
    (hcall : buddyAlloc state req zone ⟨[], listNode⟩ = some (after, block)) :
    ∃ taken, mappedTake state req zone = some (taken, block) ∧
      after = taken.withTable after.lists after.usedBuddyHashTable := by
  unfold mappedTake
  by_cases hlarge : req > 2 ^ MAX_ORDER
  · rw [buddyAlloc, if_pos hlarge] at hcall
    exact ⟨after, (if_pos hlarge).trans hcall, rfl⟩
  · rw [buddyAlloc_eq state (not_lt.mp hlarge)] at hcall
    rw [if_neg hlarge]
    cases horder : requestOrder req with
    | none =>
      rw [horder] at hcall
      cases hcall
      exact ⟨state, rfl, rfl⟩
    | some order =>
      rw [horder] at hcall
      simp only at hcall
      rw [allocOrder_eq] at hcall
      obtain ⟨⟨taken, found⟩, htake, henter⟩ := bind_eq_some_iff.mp hcall
      unfold enterUsed at henter
      split at henter
      · obtain ⟨rfl, rfl⟩ := Prod.mk.inj (some.inj henter)
        exact ⟨taken, htake, rfl⟩
      · obtain ⟨entered, hinsert, heq⟩ := map_eq_some_iff.mp henter
        obtain ⟨rfl, rfl⟩ := Prod.mk.inj heq
        exact ⟨taken, htake, insertUsed_eq_withTable hinsert⟩

theorem physAlloc_mapped
    (hcall : physAlloc state req zone ⟨[], listNode⟩ = some (after, addr)) :
    ∃ used', mappedStep ⟨state, used⟩
        (.alloc req zone after.lists after.usedBuddyHashTable) =
      some (⟨after, used'⟩, addr) := by
  obtain ⟨entered, block, hbuddy, hne, rfl, rfl⟩ := physAlloc_eq_some hcall
  obtain ⟨taken, htake, hentered⟩ := buddyAlloc_mapped hbuddy
  have hstart : (entered.blocks block).startAddress = (taken.blocks block).startAddress := by
    rw [hentered]
    rfl
  simp only [mappedStep, htake, bind_eq_bind, bind_some, if_neg hne, pure_def, hstart]
  refine ⟨if req > 2 ^ MAX_ORDER then used else block :: used, ?_⟩
  change some (MappedState.mk (handOut (taken.withTable entered.lists entered.usedBuddyHashTable)
    block) _, _) = _
  rw [← hentered]

/-- The table finds the block that the map has for an address. -/
def LooksUp (machine : MappedState) (address : ℕ) : Prop :=
  findUsed machine.state address = some ((machine.used.find? fun block ↦
    (machine.state.blocks block).startAddress == address).getD NULL)

theorem physDealloc_mapped (hnull : NULL ∉ used) (hlooks : LooksUp ⟨state, used⟩ addr)
    (hcall : physDealloc state addr = some after) :
    ∃ used' lists table, mappedStep ⟨state, used⟩ (.dealloc addr lists table) =
      some (⟨after, used'⟩, 0) := by
  unfold physDealloc buddyFree at hcall
  rw [show findUsed state addr = _ from hlooks] at hcall
  simp only [bind_eq_bind, bind_some] at hcall
  cases hfind : used.find? fun block ↦ (state.blocks block).startAddress == addr with
  | none =>
    simp only [hfind, getD_none, if_true, pure_def, some.injEq] at hcall
    subst hcall
    exact ⟨used, state.lists, state.usedBuddyHashTable, by simp only [mappedStep, hfind]⟩
  | some block =>
    have hne : block ≠ NULL := fun h ↦ hnull (h ▸ List.mem_of_find?_eq_some hfind)
    simp only [hfind, getD_some, if_neg hne] at hcall
    obtain ⟨⟨lists, table, status⟩, -, hcall⟩ := bind_eq_some_iff.mp hcall
    split at hcall
    · cases hcall
    · refine ⟨used.erase block, lists, table, ?_⟩
      simp only [mappedStep, hfind]
      rw [show release (state.withTable lists table) block = some after from hcall]
      rfl

end Simulation

/-- Every filed block is filed once, under its own order and zone, is free, and is not in the
table. -/
structure FiledByOrder (machine : MappedState) : Prop where
  filed : ∀ zone < ZONES, ∀ key, ∀ block ∈ machine.state.buddyFreeListZone zone key,
    key ≤ MAX_ORDER ∧ (machine.state.blocks block).order = key ∧
      (machine.state.blocks block).isFree = .free ∧ (machine.state.blocks block).zone = zone
  once : (allFiled machine.state).Nodup
  notUsed : ∀ block ∈ machine.used, block ∉ allFiled machine.state

variable {machine : MappedState} {others : List Ptr} {pages : List (ℕ × ℕ)}

theorem Mapped.filedByOrder (hmapped : Mapped machine pages others) : FiledByOrder machine where
  filed zone hzone key block hblock := by
    have hunder := hmapped.accounted.filed zone hzone key block hblock
    exact ⟨hunder.le, hunder.order, hunder.isFree, hunder.zone⟩
  once := hmapped.accounted.nodup.of_append_left.of_append_right
  notUsed block hblock hfiled := by
    obtain ⟨zone, hzone, key, -, hmem⟩ := mem_allFiled.mp hfiled
    exact hmapped.accounted.notMem_filed (hmapped.mem block hblock) hzone hmem

theorem Mapped.null_notMem
    (hmapped : Mapped machine pages others) : NULL ∉ allFiled machine.state := fun hnull ↦
  hmapped.accounted.nonnull (List.mem_append_left _ (List.mem_append_right _ hnull))

/-- The search of `buddy_alloc` over the orders from `index` on takes the branch for a block whose
order is too low. The conditions are those of `searchLarger`. -/
def entersRecovery (zone : ℕ) : ℕ → State → ℕ → Bool
  | 0, _, _ => false
  | fuel + 1, state, index =>
      if index ≤ MAX_ORDER then
        match lookupTree state zone index with
        | none => false
        | some (popped, block) =>
            let header := popped.blocks block
            if block ≠ NULL ∧ header.startAddress ≠ 0 ∧ index ≤ header.order then false
            else if block ≠ NULL ∧ header.order < index then true
            else entersRecovery zone fuel popped (index + 1)
      else false

/-- The search takes out a block from under each key that it has passed, which leaves blocks filed
under their own order. -/
theorem entersRecovery_eq_false {zone : ℕ} : ∀ (fuel : ℕ) {state : State} (idx : ℕ),
    (∀ key, ∀ block ∈ state.buddyFreeListZone zone key, (state.blocks block).order = key) →
      entersRecovery zone fuel state idx = false
  | 0, _, _, _ => rfl
  | fuel + 1, state, idx, hfiled => by
      unfold entersRecovery
      split
      · cases hlookup : lookupTree state zone idx with
        | none => rfl
        | some found =>
          rw [lookupTree_eq (zone_lt_of_lookupTree hlookup)] at hlookup
          cases hlookup
          let rest := (state.buddyFreeListZone zone idx).tail
          have hlow : ¬ ((state.buddyFreeListZone zone idx).headD NULL ≠ NULL ∧
              (state.blocks ((state.buddyFreeListZone zone idx).headD NULL)).order < idx) := by
            cases htree : state.buddyFreeListZone zone idx with
            | nil => exact fun h ↦ h.1 rfl
            | cons block others =>
              have horder := hfiled idx block (by simp [htree])
              exact fun h ↦ ne_of_lt h.2 horder
          have hrest : ∀ key, ∀ block ∈ (state.setEntries zone idx rest).buddyFreeListZone zone key,
              (state.blocks block).order = key := by
            intro key block hblock
            by_cases hkey : key = idx
            · subst hkey
              apply hfiled key block
              exact List.mem_of_mem_tail (by simpa [State.setEntries, rest] using hblock)
            · exact hfiled key block (by simpa [State.setEntries, hkey] using hblock)
          dsimp only
          split
          · rfl
          · exact (if_neg hlow).trans (entersRecovery_eq_false fuel (idx + 1) hrest)
      · rfl

/-- The filed blocks are in order, and no request would make the search take the branch. -/
structure OrdersKept (machine : MappedState) : Prop where
  filed : FiledByOrder machine
  recovery : ∀ zone fuel index, entersRecovery zone fuel machine.state index = false

theorem FiledByOrder.ordersKept (hfiled : FiledByOrder machine) :
    OrdersKept machine where
  filed := hfiled
  recovery zone fuel index := by
    by_cases hzone : zone < ZONES
    · exact entersRecovery_eq_false fuel index fun key block hblock ↦
        (hfiled.filed zone hzone key block hblock).2.1
    · -- There is no tree for the zone.
      cases fuel with
      | zero => rfl
      | succ fuel =>
        have hnone : lookupTree machine.state zone index = none := by
          simp [lookupTree, State.onTree, hzone]
        simp [entersRecovery, hnone]

theorem run_mapped {pool : List Ptr} {lists : NodeStore} {entries : List MemmapEntry}
    {initial : State} (hinit : physInit pool lists entries = some initial) {calls : List Call}
    {final : MappedState} {outs : List ℕ}
    (hrun : run mappedStep ⟨initial, []⟩ calls = some (final, outs)) :
    ∃ pages others, Mapped final pages others := by
  obtain ⟨pages, hacc, hkalloc⟩ := physInit_filed hinit
  have hinitial : ∃ pages others, Mapped ⟨initial, []⟩ pages others :=
    ⟨pages, [], hacc, hkalloc, List.nodup_nil, by simp, by simp⟩
  have hstep : ∀ machine call next out, (∃ pages others, Mapped machine pages others) → True →
      mappedStep machine call = some (next, out) → ∃ pages others, Mapped next pages others := by
    rintro machine call next out ⟨pages, others, hmapped⟩ - hnext
    exact hmapped.step hnext
  exact run_preserves hstep hinitial (Guarded.always ..) hrun

/-- **No block is filed under a wrong order**, in any state that calls of the allocator reach. -/
theorem run_ordersKept {pool : List Ptr} {lists : NodeStore} {entries : List MemmapEntry}
    {initial : State} (hinit : physInit pool lists entries = some initial) {calls : List Call}
    {final : MappedState} {outs : List ℕ}
    (hrun : run mappedStep ⟨initial, []⟩ calls = some (final, outs)) : OrdersKept final := by
  obtain ⟨pages, others, hmapped⟩ := run_mapped hinit hrun
  exact hmapped.filedByOrder.ordersKept

/-- Allocations that split the block, and releases of which the first finds its successor in use and
the last merges. -/
def splitCalls : List Call :=
  [.alloc 3 0 oneBlockState.lists oneBlockState.usedBuddyHashTable,
    .alloc 4 0 oneBlockState.lists oneBlockState.usedBuddyHashTable,
    .dealloc 0x1000000 oneBlockState.lists oneBlockState.usedBuddyHashTable,
    .dealloc 0x1004000 oneBlockState.lists oneBlockState.usedBuddyHashTable]

/-- Four calls on a machine with one block. -/
theorem run_ordersKept_oneBlock : ∃ final outs,
    run mappedStep ⟨oneBlockState, []⟩ splitCalls = some (final, outs) ∧
      outs = [0x1000000, 0x1004000, 0, 0] ∧ final.used = [] ∧ OrdersKept final := by
  refine exists_of_any (fun final outs ↦ outs = [0x1000000, 0x1004000, 0, 0] ∧
    final.used = []) (by decide +kernel) ?_
  rintro final outs hrun ⟨houts, hused⟩
  exact ⟨houts, hused, run_ordersKept physInit_oneBlockMap hrun⟩

end DionysOS.Memory.Pmm
