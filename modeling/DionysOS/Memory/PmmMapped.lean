import DionysOS.Memory.PmmLarge

/-!
# The allocator with its table as a map

The table of used blocks matters to the allocator in two places: an allocation enters a block, and a
release looks a block up by its address and takes it out. `mappedStep` is a call of the allocator in
which the table is the list of the blocks that were entered, the last one first, and in which
descriptors come from the static pool only. What the lists of the real table look like after a call
is an argument of the call, since nothing else depends on it.

`Mapped` is the invariant of this machine: the descriptors are accounted for, none is on loan from
`_kalloc`, and the blocks in the table are used blocks outside the trees. No condition on the
memory map, on the requests or on the released addresses is needed for it.
-/

namespace DionysOS.Memory.Pmm

open DataStructures List Option State
open DataStructures.HashTable
open DataStructures.SinglyLinkedList (NodeStore)

structure MappedState where
  state : State
  used : List Ptr

inductive Call where
  | alloc (pages zone : ℕ) (lists : NodeStore) (table : StaticHashTable)
  | dealloc (address : ℕ) (lists : NodeStore) (table : StaticHashTable)

def State.withTable (state : State) (lists : NodeStore) (table : StaticHashTable) : State :=
  { state with lists := lists, usedBuddyHashTable := table }

/-- `buddy_alloc` without the table and with the static pool as the only source of descriptors. -/
def mappedTake (state : State) (pages zone : ℕ) : Option (State × Ptr) :=
  if pages > 2 ^ MAX_ORDER then buddyAllocLargeRange state pages zone
  else
    match requestOrder pages with
    | none => some (state, NULL)
    | some order => takeOrder state order zone []

/-- The state in which `buddy_free` passes the block on. -/
def releasing (state : State) (block : Ptr) : State :=
  { markFree state block with totalAllocated :=
    (state.totalAllocated + 2 ^ 64 - 2 ^ (state.blocks block).order) % 2 ^ 64 }

/-- The part of `buddy_free` that follows the removal of `block` from the table. -/
def release (state : State) (block : Ptr) : Option State :=
  buddyCoalesce (releasing state block) block

/-- One call. Large ranges are not entered into the table, and an address that is not in it goes
to the slab allocator. -/
def mappedStep (machine : MappedState) : Call → Option (MappedState × ℕ)
  | .alloc pages zone lists table => do
      let (taken, block) ← mappedTake machine.state pages zone
      if block = NULL then none
      else
        let used := if pages > 2 ^ MAX_ORDER then machine.used else block :: machine.used
        pure (⟨handOut (taken.withTable lists table) block, used⟩, (taken.blocks block).startAddress)
  | .dealloc address lists table =>
      match machine.used.find? fun block ↦ (machine.state.blocks block).startAddress == address with
      | none => some (machine, 0)
      | some block =>
          (release (machine.state.withTable lists table) block).map fun state ↦
            (⟨state, machine.used.erase block⟩, 0)

theorem stable_kallocLive (live : List Ptr) : Stable [] fun state ↦ state.kallocLive = live :=
  ⟨fun _ h ↦ h, fun _ h ↦ h, fun _ h ↦ h, by simp⟩

/-- The descriptors are accounted for, and the blocks in the table are used and in no tree. -/
structure Mapped (machine : MappedState) (pages : List (ℕ × ℕ)) (others : List Ptr) : Prop where
  accounted : Accounted (fun _ _ ↦ True) pages machine.state others
  kalloc : machine.state.kallocLive = []
  nodup : machine.used.Nodup
  mem : ∀ block ∈ machine.used, block ∈ others
  used : ∀ block ∈ machine.used, (machine.state.blocks block).isFree = .used

section Steps

variable {pages : List (ℕ × ℕ)} {state after : State} {others rest : List Ptr} {block : Ptr}
  {req zone : ℕ}

variable {found : State × Ptr}

theorem zone_lt_of_lookupTree {key : ℕ}
    (hcall : lookupTree state zone key = some found) : zone < ZONES := by
  unfold lookupTree onTree at hcall
  split at hcall
  · assumption
  · cases hcall

theorem zone_lt_of_largeAttempt {attempts : ℕ}
    (hcall : largeAttempt req zone attempts state = some found) : zone < ZONES := by
  cases attempts with
  | zero => cases hcall
  | succ attempts =>
    obtain ⟨_, hlookup, -⟩ := bind_eq_some_iff.mp hcall
    exact zone_lt_of_lookupTree hlookup

theorem zone_lt_of_takeOrder {order : ℕ} {supply : List Ptr}
    (hcall : takeOrder state order zone supply = some found) : zone < ZONES := by
  obtain ⟨_, hlookup, -⟩ := bind_eq_some_iff.mp hcall
  exact zone_lt_of_lookupTree hlookup

/-- A block has been taken out of the trees for a request. -/
structure TakenFor (pages : List (ℕ × ℕ)) (before after : State) (others others' : List Ptr)
    (block : Ptr) : Prop where
  accounted : Accounted (fun _ _ ↦ True) pages after others'
  kalloc : after.kallocLive = before.kallocLive
  mem : block ∈ others'
  notMem : block ∉ others
  subset : others ⊆ others'
  used : ∀ other ∈ others, (before.blocks other).isFree = .used → (after.blocks other).isFree = .used

theorem mappedTake_spec (hacc : Accounted (fun _ _ ↦ True) pages state others)
    (hcall : mappedTake state req zone = some (after, block))
    (hne : block ≠ NULL) : ∃ others', TakenFor pages state after others others' block := by
  unfold mappedTake at hcall
  split at hcall
  · rename_i hlarge
    have hzone := zone_lt_of_largeAttempt hcall
    obtain ⟨mid, rest, ⟨hmiddle, hblocks, hkalloc⟩, hsucceeds⟩ :=
      @largeAttempt_outcome zone req (fun mid ↦
        Accounted (fun _ _ ↦ True) pages mid others ∧ mid.blocks = state.blocks ∧
          mid.kallocLive = state.kallocLive) hzone hlarge
        (fun {mid block} hholds hblock ↦ ⟨hholds.1.filed_ne_null hzone hblock,
          (hholds.1.filed zone hzone MAX_ORDER block hblock).order⟩)
        (fun hholds htree _ ↦ ⟨hholds.1.rotate hzone htree, hholds.2⟩)
        501 state after block ⟨hacc, rfl, rfl⟩ hcall
    obtain ⟨others', hafter, hmem, hnotMem, hsubset, -⟩ := hsucceeds.accounted hzone hmiddle
    refine ⟨others', hafter, ?_, hmem, hnotMem, hsubset, fun other hother hused ↦ ?_⟩
    · obtain ⟨total, hequal⟩ := hsucceeds.after_eq hzone
      rw [hequal]
      simpa [takenChain, markChain, setBlock, setEntries] using hkalloc
    · rw [hsucceeds.blocks hzone]
      split
      · rfl
      · rw [markChain_other (ne_of_mem_of_not_mem hother hnotMem), hblocks, hused]
  · split at hcall
    · cases hcall
      exact absurd rfl hne
    · rename_i order horder
      have hzone := zone_lt_of_takeOrder hcall
      obtain ⟨dropped, hpick, -⟩ := (takeOrder_spec (fun _ _ _ ↦ ⟨trivial, trivial⟩) hzone hacc
        ⟨nodup_nil, by simp, by simp, by simp⟩ (requestOrder_eq_some horder).1).1 after block hcall
          hne
      refine ⟨_, hpick.accounted, (stable_kallocLive _).takeOrder rfl hcall, mem_cons_self, fun hmem ↦ ?_, fun other hother ↦
        mem_cons_of_mem _ (mem_append_right _ hother), fun other hother hused ↦ ?_⟩
      · exact hpick.accounted.notMem_others (mem_append_right _ hmem)
      · rw [hpick.kept other hother, hused]

/-- A block of the static pool that is its own successor is wiped by the merge, and no tree takes
it. -/
theorem buddyCoalesce_self (hmerges : Merges state block) (hself : (state.blocks block).next = block)
    (hne : block ≠ NULL) (hstatic : (state.blocks block).staticPoolFlag = true)
    (hout : (state.blocks block).inTreeFlag = false) : buddyCoalesce state block = none := by
  obtain ⟨hfiles, htest⟩ := hmerges
  obtain ⟨hnull, hmax⟩ := not_or.mp hfiles
  simp only [buddyCoalesce, if_neg hne, if_neg hnull, if_neg hmax, if_pos htest]
  rw [hself]
  simp [buddyBlockFree, setBlock, hstatic, hout, fileFree, insertTreeNode, onTree, UNUSED,
    ZONES]

theorem releasing_block (state : State) (block : Ptr) : (releasing state block).blocks block =
    { state.blocks block with isFree := .free, inTreeFlag := false } := by
  simp [releasing, markFree, setBlock]

theorem releasing_other {other : Ptr} (hne : other ≠ block) :
    (releasing state block).blocks other = state.blocks other := markFree_other hne

theorem Accounted.releasing (hacc : Accounted (fun _ _ ↦ True) pages state (block :: rest)) :
    Accounted (fun _ _ ↦ True) pages (releasing state block) (block :: rest) := by
  have hmarked : Accounted (fun _ _ ↦ True) pages (markFree state block) (block :: rest) :=
    hacc.setBlock mem_cons_self _ rfl rfl rfl rfl rfl
  exact hmarked.recount rfl rfl rfl rfl

theorem release_spec (hacc : Accounted (fun _ _ ↦ True) pages state (block :: rest))
    (hkalloc : state.kallocLive = []) (hcall : release state block = some after) :
    ∃ pages', Settled (fun _ _ ↦ True) pages' (releasing state block) after block rest ∧
      after.kallocLive = [] := by
  have hmarked := hacc.releasing
  have hhdr := releasing_block state block
  have hfree : ((releasing state block).blocks block).isFree = .free := by rw [hhdr]
  have hnone : ∀ {after : State}, after.kallocLive.Sublist (releasing state block).kallocLive →
      after.kallocLive = [] := fun h ↦ sublist_nil.mp (hkalloc ▸ h)
  unfold release at hcall
  by_cases hmerges : Merges (releasing state block) block
  · have hne : ((releasing state block).blocks block).next ≠ block := by
      intro hself
      have howned := (hmarked.sound block (mem_append_left _ mem_cons_self)).owned
      have hstatic : ((releasing state block).blocks block).staticPoolFlag = true := by
        by_contra hdynamic
        rw [if_neg hdynamic] at howned
        have hmem := howned.1
        rw [show (releasing state block).kallocLive = [] from hkalloc] at hmem
        cases hmem
      have hnonnull : block ≠ NULL := fun h ↦
        hmarked.nonnull (mem_append_left _ (h ▸ mem_cons_self))
      rw [buddyCoalesce_self hmerges hself hnonnull hstatic (by rw [hhdr])] at hcall
      cases hcall
    obtain ⟨hlt, hunfiled⟩ := hmerges.facts hmarked hne
    obtain ⟨after', hcoalesce, -, -, hsublist, hsettled⟩ := buddyCoalesce_settles hmarked hfree
      (fun h ↦ absurd hmerges h) fun _ ↦ ⟨hne, fun merged hmerged ↦ by
        rw [hmerged]
        exact hunfiled.merge_pages (by simp) (by simpa using hlt) trivial (.refl _)⟩
    obtain rfl : after' = after := some.inj (hcoalesce.symm.trans hcall)
    exact ⟨_, hsettled, hnone hsublist⟩
  · obtain ⟨after', hcoalesce, -, -, hsublist, hsettled⟩ := buddyCoalesce_settles hmarked hfree
      (fun _ ↦ rfl) fun h ↦ absurd h hmerges
    obtain rfl : after' = after := some.inj (hcoalesce.symm.trans hcall)
    exact ⟨pages, hsettled, hnone hsublist⟩

end Steps

theorem Mapped.step {machine after : MappedState} {pages : List (ℕ × ℕ)} {others : List Ptr}
    (hmapped : Mapped machine pages others) {call : Call} {result : ℕ}
    (hstep : mappedStep machine call = some (after, result)) :
    ∃ pages' others', Mapped after pages' others' := by
  cases call with
  | alloc req zone lists table =>
    obtain ⟨⟨taken, block⟩, htake, hstep⟩ := bind_eq_some_iff.mp hstep
    simp only at hstep
    obtain ⟨hnonnull, hstep⟩ := ite_none_left_eq_some.mp hstep
    obtain ⟨rfl, -⟩ := Prod.mk.inj (some.inj hstep)
    obtain ⟨others', htaken⟩ := mappedTake_spec hmapped.accounted htake hnonnull
    have hmarked := htaken.accounted.setBlock htaken.mem
      { taken.blocks block with isFree := .used } rfl rfl rfl rfl rfl
    have hstatus : ∀ other ∈ others, (machine.state.blocks other).isFree = .used →
        ((handOut (taken.withTable lists table) block).blocks other).isFree = .used := by
      intro other hother hused
      have hne : other ≠ block := fun h ↦ htaken.notMem (h ▸ hother)
      rw [handOut_other hne]
      exact htaken.used other hother hused
    have hotherUsed : ∀ other ∈ machine.used,
        ((handOut (taken.withTable lists table) block).blocks other).isFree = .used :=
      fun other hother ↦ hstatus other (hmapped.mem other hother) (hmapped.used other hother)
    refine ⟨pages, others', hmarked.recount rfl rfl rfl rfl,
      htaken.kalloc.trans hmapped.kalloc, ?_, ?_, ?_⟩
    · dsimp only
      split
      · exact hmapped.nodup
      · exact nodup_cons.mpr ⟨fun h ↦ htaken.notMem (hmapped.mem block h), hmapped.nodup⟩
    · dsimp only
      intro other hother
      split at hother
      · exact htaken.subset (hmapped.mem other hother)
      · rcases mem_cons.mp hother with rfl | hother
        · exact htaken.mem
        · exact htaken.subset (hmapped.mem other hother)
    · dsimp only
      intro other hother
      split at hother
      · exact hotherUsed other hother
      · rcases mem_cons.mp hother with rfl | hother
        · rw [handOut_block]
        · exact hotherUsed other hother
  | dealloc addr lists table =>
    simp only [mappedStep] at hstep
    split at hstep
    · cases hstep
      exact ⟨pages, others, hmapped⟩
    · rename_i block hfind
      obtain ⟨state, hrelease, heq⟩ := map_eq_some_iff.mp hstep
      obtain ⟨rfl, -⟩ := Prod.mk.inj heq
      have hblock := mem_of_find?_eq_some hfind
      have hperm := perm_cons_erase (hmapped.mem block hblock)
      have hacc : Accounted (fun _ _ ↦ True) pages (machine.state.withTable lists table)
          (block :: others.erase block) :=
        (hmapped.accounted.perm hperm.symm).recount rfl rfl rfl rfl
      obtain ⟨pages', hsettled, hkalloc⟩ := release_spec hacc hmapped.kalloc hrelease
      have hrest : ∀ other ∈ machine.used.erase block, other ≠ block ∧ other ∈ others.erase block ∧
          ((releasing (machine.state.withTable lists table) block).blocks other).isFree = .used := by
        intro other hother
        have hne : other ≠ block := fun h ↦ hmapped.nodup.not_mem_erase (h ▸ hother)
        have hmem := mem_of_mem_erase hother
        refine ⟨hne, (mem_erase_of_ne hne).mpr (hmapped.mem other hmem), ?_⟩
        rw [releasing_other hne]
        exact hmapped.used other hmem
      have hused : ∀ other ∈ machine.used.erase block, (state.blocks other).isFree = .used := by
        intro other hother
        obtain ⟨-, hmem, hstatus⟩ := hrest other hother
        rw [hsettled.kept hmem hstatus]
        exact hstatus
      have hnodup : (machine.used.erase block).Nodup := hmapped.nodup.erase block
      cases hsettled with
      | filed hafter hkept =>
        exact ⟨pages', _, hafter, hkalloc, hnodup, fun other hother ↦ (hrest other hother).2.1, hused⟩
      | merged hfree hafter hkept =>
        refine ⟨pages', _, hafter, hkalloc, hnodup, fun other hother ↦ ?_, hused⟩
        obtain ⟨-, hmem, hstatus⟩ := hrest other hother
        apply (mem_erase_of_ne _).mpr hmem
        rintro rfl
        rw [hfree] at hstatus
        cases hstatus
      | left hneither hafter hkept =>
        exact ⟨pages', _, hafter, hkalloc, hnodup,
          fun other hother ↦ mem_cons_of_mem _ (hrest other hother).2.1, hused⟩

end DionysOS.Memory.Pmm
