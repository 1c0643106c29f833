import DionysOS.Memory.PmmAccounting

/-!
# Splitting a block

`buddy_split` halves a block and gives the upper half a new descriptor, from the static pool or
from `_kalloc`. `Accounted.split` is the step on the accounts; the code's loop down to the wanted
order is an iteration of it.
-/

namespace DionysOS.Memory.Pmm

open DataStructures List Function Option State

variable {fits : ℕ → ℕ → Prop} {pages : List (ℕ × ℕ)} {state taken : State} {others : List Ptr}
  {block new : Ptr} {supply : List Ptr} {order : ℕ}

/-- The halves of a block that fits do so too. -/
def Halving (fits : ℕ → ℕ → Prop) : Prop :=
  ∀ start order, fits start (order + 1) →
    fits start order ∧ fits (start + 2 ^ order * PAGE_SIZE) order

def lowerHalf (header : BuddyBlock) (new : Ptr) (order : ℕ) : BuddyBlock :=
  { header with next := new, order := order }

/-- The header of the upper half, in the descriptor `fresh`. -/
def upperHalf (header fresh : BuddyBlock) (order : ℕ) : BuddyBlock :=
  { fresh with
    next := header.next
    order := order
    startAddress := header.startAddress + 2 ^ order * PAGE_SIZE
    zone := header.zone
    isFree := .free
    inTreeFlag := true }

theorem zonedPages_halves (hdr fresh : BuddyBlock) (new : Ptr)
    (horder : hdr.order = order + 1) : zonedPages hdr ~
      zonedPages (upperHalf hdr fresh order) ++ zonedPages (lowerHalf hdr new order) := by
  have hstart : (hdr.startAddress + 2 ^ order * PAGE_SIZE) / PAGE_SIZE =
      hdr.startAddress / PAGE_SIZE + 2 ^ order :=
    Nat.add_mul_div_right _ _ (by decide)
  have hrange : range' (hdr.startAddress / PAGE_SIZE) (2 ^ (order + 1)) =
      range' (hdr.startAddress / PAGE_SIZE) (2 ^ order) ++
        range' (hdr.startAddress / PAGE_SIZE + 2 ^ order) (2 ^ order) := by
    rw [range'_append_1, pow_succ, Nat.mul_two]
  unfold zonedPages upperHalf lowerHalf
  rw [horder, hrange, hstart, map_append]
  exact perm_append_comm

/-- What `_kalloc` promises about the descriptors it returns during a call. -/
@[mk_iff]
structure Supplied (state : State) (supply : List Ptr) : Prop where
  nodup : supply.Nodup
  nonnull : NULL ∉ supply
  dynamic : ∀ block ∈ supply, ¬ IsStatic block
  notLive : ∀ block ∈ supply, block ∉ state.kallocLive

/-- The descriptors that `buddy_block_get` hands out, in this order. -/
def spareDescriptors (state : State) (supply : List Ptr) : List Ptr :=
  state.unusedBuddyBlocksList ++ supply

/-- What a new descriptor is taken from. -/
structure Gotten (state taken : State) (supply supply' : List Ptr) (new : Ptr) : Prop where
  spare : spareDescriptors state supply = new :: spareDescriptors taken supply'
  trees : taken.buddyFreeListZone = state.buddyFreeListZone
  blocks : ∀ block, block ≠ new → taken.blocks block = state.blocks block
  table : taken.usedBuddyHashTable = state.usedBuddyHashTable
  lists : taken.lists = state.lists

variable {supply' : List Ptr} {after before mid : State}

theorem buddyBlockGet_gotten (hget : buddyBlockGet state supply = some (taken, new, supply')) :
    Gotten state taken supply supply' new := by
  unfold buddyBlockGet at hget
  split at hget
  · rename_i hunused
    cases hget
    exact ⟨by simp [spareDescriptors, hunused], rfl, fun _ _ ↦ rfl, rfl, rfl⟩
  · cases hget
  · rename_i hunused
    cases hget
    refine ⟨by simp [spareDescriptors, hunused, setBlock], rfl, fun block hne ↦ ?_, rfl, rfl⟩
    simp [setBlock, hne]

theorem buddyBlockGet_isSome (hspare : spareDescriptors state supply ≠ []) :
    (buddyBlockGet state supply).isSome = true := by
  unfold buddyBlockGet
  split
  · rfl
  · rename_i hunused
    simp [spareDescriptors, hunused] at hspare
  · rfl

/-- What is left when a descriptor has been taken. -/
structure Taken (state taken : State) (others : List Ptr) (new : Ptr) : Prop where
  trees : taken.buddyFreeListZone = state.buddyFreeListZone
  table : taken.usedBuddyHashTable = state.usedBuddyHashTable
  lists : taken.lists = state.lists
  blocks : ∀ block, block ≠ new → taken.blocks block = state.blocks block
  kalloc : ∀ block ∈ state.kallocLive, block ∈ taken.kallocLive
  nonnull : new ≠ NULL
  owned : if (taken.blocks new).staticPoolFlag then IsStatic new
    else new ∈ taken.kallocLive ∧ ¬ IsStatic new
  nodup : (new :: (live state others ++ taken.unusedBuddyBlocksList)).Nodup
  unused : ∀ block ∈ taken.unusedBuddyBlocksList, block ∈ state.unusedBuddyBlocksList
  static : ∀ block, IsStatic block →
    block ∈ new :: (live state others ++ taken.unusedBuddyBlocksList)

theorem Supplied.notMem_live (hsupplied : Supplied state supply)
    (hacc : Accounted fits pages state others) (hnew : new ∈ supply) :
    new ∉ live state others := by
  intro hmem
  have howned := (hacc.sound new hmem).owned
  split at howned
  · exact hsupplied.dynamic new hnew howned
  · exact hsupplied.notLive new hnew howned.1

theorem buddyBlockGet_spec (hacc : Accounted fits pages state others)
    (hsupplied : Supplied state supply)
    (hget : buddyBlockGet state supply = some (taken, new, supply')) :
    Taken state taken others new ∧ Supplied taken supply' := by
  have hgotten := buddyBlockGet_gotten hget
  unfold buddyBlockGet at hget
  split at hget
  · rename_i rest hunused
    cases hget
    have hnodup : (new :: (live state others ++ rest)).Nodup :=
      (hunused ▸ perm_middle).nodup_iff.mp hacc.nodup
    have hnew := hacc.unused new (by simp [hunused])
    refine ⟨⟨rfl, rfl, rfl, fun _ _ ↦ rfl, fun _ h ↦ h, ?_, ?_, hnodup, ?_, ?_⟩, { hsupplied with }⟩
    · rintro rfl
      exact hacc.nonnull (by simp [hunused])
    · simpa [hnew.2.1] using hnew.2.2
    · intro block hblock
      rw [hunused]
      exact mem_cons_of_mem _ hblock
    · intro block hblock
      have h := hacc.static block hblock
      rw [hunused] at h
      exact perm_middle.mem_iff.mp h
  · cases hget
  · rename_i hunused
    cases hget
    have hnotLive := hsupplied.notMem_live hacc mem_cons_self
    obtain ⟨hnotSupply, hnodup⟩ := nodup_cons.mp hsupplied.nodup
    refine ⟨⟨rfl, rfl, rfl, hgotten.blocks, ?_, ?_, ?_, ?_, ?_, ?_⟩, ⟨hnodup, ?_, ?_, ?_⟩⟩
    · exact fun block hblock ↦ mem_cons_of_mem _ hblock
    · rintro rfl
      exact hsupplied.nonnull mem_cons_self
    · simpa [setBlock, BuddyBlock.zero] using hsupplied.dynamic new mem_cons_self
    · have hnodup := hacc.nodup
      rw [hunused, append_nil] at hnodup
      simpa [setBlock, hunused] using ⟨hnotLive, hnodup⟩
    · exact fun block hblock ↦ hblock
    · intro block hblock
      have h := hacc.static block hblock
      exact mem_cons_of_mem _ h
    · exact fun h ↦ hsupplied.nonnull (mem_cons_of_mem _ h)
    · exact fun block hblock ↦ hsupplied.dynamic block (mem_cons_of_mem _ hblock)
    · intro block hblock
      simp only [mem_cons, not_or]
      exact ⟨fun h ↦ hnotSupply (h ▸ hblock), hsupplied.notLive block (mem_cons_of_mem _ hblock)⟩

/-- The state after a split: the block keeps the lower half, `new` has the upper one. -/
def splitState (taken : State) (header : BuddyBlock) (block new : Ptr) (order : ℕ) : State :=
  (taken.setBlock block (lowerHalf header new order)).setBlock new
    (upperHalf header (taken.blocks new) order)

section Split

variable (htaken : Taken state taken others new) (hblock : block ∈ others)

include htaken hblock in
theorem Taken.ne : block ≠ new := by
  rintro rfl
  apply (nodup_cons.mp htaken.nodup).1
  exact mem_append_left _ (mem_append_left _ hblock)

theorem splitState_new (taken : State) (hdr : BuddyBlock) (block new : Ptr) (order : ℕ) :
    (splitState taken hdr block new order).blocks new =
      upperHalf hdr (taken.blocks new) order := by
  simp [splitState, setBlock]

theorem splitState_block (hne : block ≠ new) (taken : State) (hdr : BuddyBlock) (order : ℕ) :
    (splitState taken hdr block new order).blocks block = lowerHalf hdr new order := by
  simp [splitState, setBlock, hne]

include htaken in
theorem splitState_other {other : Ptr} (hother : other ≠ block) (hnew : other ≠ new)
    (hdr : BuddyBlock) (order : ℕ) :
    (splitState taken hdr block new order).blocks other = state.blocks other := by
  simp [splitState, setBlock, hother, hnew, htaken.blocks other hnew]

include htaken in
theorem live_splitState (hdr : BuddyBlock) (order : ℕ) :
    live (splitState taken hdr block new order) (new :: others) = new :: live state others := by
  have htrees : (splitState taken hdr block new order).buddyFreeListZone =
      state.buddyFreeListZone := htaken.trees
  rw [live, allFiled_congr htrees, cons_append, live]

theorem eq_of_redirect {first second source target : Ptr} (hfirst : first ≠ target)
    (hsecond : second ≠ target) (hsame : (if first = source then target else first) =
      if second = source then target else second) : first = second := by
  split at hsame <;> split at hsame
  · simp_all
  · exact absurd hsame.symm hsecond
  · exact absurd hsame hfirst
  · exact hsame

include htaken hblock in
/-- Successors outside the static pool keep one predecessor: the new block is behind the old one,
and what was behind the old one is behind the new one. -/
theorem Accounted.split_unique (hacc : Accounted fits pages state others) (order : ℕ) :
    let after := splitState taken (state.blocks block) block new order
    ∀ first ∈ new :: live state others, ∀ second ∈ new :: live state others,
      (after.blocks first).next = (after.blocks second).next → (after.blocks first).next ≠ NULL →
      ¬ IsStatic (after.blocks first).next → first = second := by
  intro after
  have hne : block ≠ new := htaken.ne hblock
  have hmem : block ∈ live state others := mem_append_left _ hblock
  have hnewLive : new ∉ live state others :=
    fun h ↦ (nodup_cons.mp htaken.nodup).1 (mem_append_left _ h)
  -- `before member` is the block that had the successor of `member` before the split.
  let before : Ptr → Ptr := fun member ↦ if member = new then block else member
  have hnext : ∀ member ∈ new :: live state others, member ≠ block →
      before member ∈ live state others ∧
        (after.blocks member).next = (state.blocks (before member)).next := by
    intro member hmember hother
    by_cases h : member = new
    · subst h
      exact ⟨by simpa [before] using hmem, by simp [before, after, splitState_new, upperHalf]⟩
    · refine ⟨by simpa [before, h] using hmember, ?_⟩
      simp [before, h, after, splitState_other htaken hother h]
  have hold : ∀ member ∈ new :: live state others, member ≠ block →
      ¬ IsStatic (after.blocks member).next → (after.blocks member).next ≠ NULL →
      (after.blocks member).next ≠ new := by
    intro member hmember hother hstatic hnull hnew
    obtain ⟨hbefore, heq⟩ := hnext member hmember hother
    rw [heq] at hstatic hnull hnew
    rcases hacc.next _ hbefore with h | h | h
    · exact hnull h
    · exact hstatic h
    · exact hnewLive (hnew ▸ h)
  have hlower : (after.blocks block).next = new := by
    simp [after, splitState_block hne, lowerHalf]
  intro first hfirst second hsecond hsame hnull hstatic
  by_cases hone : first = block
  · by_cases htwo : second = block
    · rw [hone, htwo]
    · rw [hsame] at hnull hstatic
      exact absurd (hsame ▸ hone ▸ hlower) (hold second hsecond htwo hstatic hnull)
  · by_cases htwo : second = block
    · exact absurd (hsame.trans (htwo ▸ hlower)) (hold first hfirst hone hstatic hnull)
    · obtain ⟨hfirst', heq⟩ := hnext first hfirst hone
      obtain ⟨hsecond', heq'⟩ := hnext second hsecond htwo
      rw [heq] at hsame hnull hstatic
      rw [heq'] at hsame
      have hbefore := hacc.unique _ hfirst' _ hsecond' hsame hnull hstatic
      exact eq_of_redirect hone htwo hbefore

include htaken hblock in
theorem Accounted.split (hacc : Accounted fits pages state others) (hhalving : Halving fits)
    (horder : (state.blocks block).order = order + 1) :
    Accounted fits pages (splitState taken (state.blocks block) block new order)
      (new :: others) := by
  have hne : block ≠ new := htaken.ne hblock
  have hmem : block ∈ live state others := mem_append_left _ hblock
  have hsound := hacc.sound block hmem
  have hhalves := hhalving _ _ (horder ▸ hsound.fits)
  have hle : order ≤ MAX_ORDER := by
    have := hsound.order
    omega
  have hnodup := nodup_cons.mp htaken.nodup
  have hnewLive : new ∉ live state others := fun h ↦ hnodup.1 (mem_append_left _ h)
  have hlive : live (splitState taken (state.blocks block) block new order) (new :: others) =
      new :: live state others := live_splitState htaken _ _
  have hunused : (splitState taken (state.blocks block) block new order).unusedBuddyBlocksList =
      taken.unusedBuddyBlocksList := rfl
  refine ⟨?_, ?_, ?_, ?_, ?_, ?_, ?_, ?_, ?_⟩
  · intro zone hzone key member hmember
    have htree : member ∈ state.buddyFreeListZone zone key := by
      rw [← htaken.trees]
      exact hmember
    have hfiled := hacc.filed zone hzone key member htree
    rw [splitState_other htaken]
    · exact hfiled
    · rintro rfl
      exact hacc.notMem_filed hblock hzone htree
    · rintro rfl
      apply hnewLive
      exact mem_append_right _ (mem_allFiled.mpr ⟨zone, hzone, key, hfiled.le, htree⟩)
  · rw [hlive]
    intro member hmember
    by_cases hnew : member = new
    · subst hnew
      rw [splitState_new]
      exact ⟨hle, hsound.zone, Nat.dvd_add hsound.aligned (Nat.dvd_mul_left ..), hhalves.2,
        htaken.owned⟩
    · have hmember : member ∈ live state others := (mem_cons.mp hmember).resolve_left hnew
      have hold := hacc.sound member hmember
      have hkept := hold.owned_mono (htaken.kalloc member)
      by_cases hsame : member = block
      · subst hsame
        rw [splitState_block hne]
        exact ⟨hle, hsound.zone, hsound.aligned, hhalves.1, hkept⟩
      · rw [splitState_other htaken hsame hnew]
        exact { hold with owned := hkept }
  · rw [hunused]
    intro member hmember
    rw [splitState_other htaken]
    · exact hacc.unused member (htaken.unused member hmember)
    · rintro rfl
      exact (nodup_append.mp hnodup.2).2.2 member hmem member hmember rfl
    · rintro rfl
      exact hnodup.1 (mem_append_right _ hmember)
  · rw [hlive, hunused, cons_append]
    exact htaken.nodup
  · rw [hlive, hunused, cons_append]
    simp only [mem_cons, mem_append, not_or]
    exact ⟨Ne.symm htaken.nonnull, fun h ↦ hacc.nonnull (mem_append_left _ h),
      fun h ↦ hacc.nonnull (mem_append_right _ (htaken.unused _ h))⟩
  · rw [hlive, hunused, cons_append]
    exact htaken.static
  · rw [hlive]
    intro member hmember
    by_cases hnew : member = new
    · subst hnew
      rw [splitState_new]
      exact (hacc.next block hmem).imp_right (.imp_right (mem_cons_of_mem _))
    · have hmember : member ∈ live state others := (mem_cons.mp hmember).resolve_left hnew
      by_cases hsame : member = block
      · subst hsame
        rw [splitState_block hne]
        exact .inr (.inr mem_cons_self)
      · rw [splitState_other htaken hsame hnew]
        exact (hacc.next member hmember).imp_right (.imp_right (mem_cons_of_mem _))
  · rw [hlive]
    exact hacc.split_unique htaken hblock order
  · rw [hlive, flatMap_cons, splitState_new]
    have hnodupLive := hacc.nodup.of_append_left
    have hsplit := flatMap_update_perm (fun member ↦ zonedPages (state.blocks member)) hnodupLive hmem
      (zonedPages_halves (state.blocks block) (taken.blocks new) new horder)
    refine (Perm.append_left _ (Perm.of_eq ?_)).trans (hsplit.symm.trans hacc.pages)
    apply flatMap_congr
    intro member hmember
    have hnew : member ≠ new := fun h ↦ hnewLive (h ▸ hmember)
    by_cases hsame : member = block
    · subst hsame
      rw [splitState_block hne, update_self]
    · rw [splitState_other htaken hsame hnew, update_of_ne hsame]

end Split

/-- A call changes no header outside the trees but that of `block`, and not the table. -/
structure Kept (before after : State) (others : List Ptr) (block : Ptr) : Prop where
  blocks : ∀ other ∈ others, other ≠ block → after.blocks other = before.blocks other
  table : after.usedBuddyHashTable = before.usedBuddyHashTable
  lists : after.lists = before.lists

/-- The header of a block in hand: taken out of its tree and free. -/
structure InHand (header : BuddyBlock) (order : ℕ) : Prop where
  order : header.order = order
  isFree : header.isFree = .free
  inTree : header.inTreeFlag = false

/-- The block still starts where it did, in the zone it was in. -/
def SameOrigin (before after : State) (block : Ptr) : Prop :=
  (after.blocks block).startAddress = (before.blocks block).startAddress ∧
    (after.blocks block).zone = (before.blocks block).zone

/-- The first part of `buddy_split`: a block that is marked as filed leaves its tree. -/
def takeOut (state : State) (block : Ptr) : Option State :=
  if (state.blocks block).inTreeFlag then
    (removeTreeNode state (state.blocks block).zone (state.blocks block).order block).map
      fun removed ↦ removed.setBlock block { state.blocks block with inTreeFlag := false }
  else some state

/-- The second part of `buddy_split`: a new descriptor is made for the upper half. -/
def halve (block : Ptr) (supply : List Ptr) (state : State) : Option (State × List Ptr) :=
  if (state.blocks block).order > MAX_ORDER ∨ (state.blocks block).order = 0 ∨
      (state.blocks block).isFree = .used then none
  else
    (buddyBlockGet state supply).bind fun (taken, new, supply') ↦
      (insertTreeNode (splitState taken (state.blocks block) block new
        ((state.blocks block).order - 1)) (state.blocks block).zone new
          ((state.blocks block).order - 1)).bind fun inserted ↦ some (inserted, supply')

theorem buddySplit_eq_bind (state : State) (block : Ptr) (supply : List Ptr) :
    buddySplit state block supply = (takeOut state block).bind (halve block supply) := by
  unfold buddySplit takeOut
  simp only [bind_eq_bind, Option.pure_def, bind_some]
  split
  · rw [map_eq_bind, bind_assoc]
    congr 1
  · rfl

/-- The state after a split, with the upper half in the tree. -/
def dividedState (taken : State) (header : BuddyBlock) (block new : Ptr) (order : ℕ) : State :=
  (splitState taken header block new order).setEntries header.zone order
    (taken.buddyFreeListZone header.zone order ++ [new])

theorem buddySplit_eq (hhand : InHand (state.blocks block) (order + 1)) (hle : order < MAX_ORDER)
    (hzone : (state.blocks block).zone < ZONES) :
    buddySplit state block supply = (buddyBlockGet state supply).map fun (taken, new, supply') ↦
      (dividedState taken (state.blocks block) block new order, supply') := by
  have hguard : ¬ ((state.blocks block).order > MAX_ORDER ∨ (state.blocks block).order = 0 ∨
      (state.blocks block).isFree = .used) := by
    rw [hhand.order, hhand.isFree]
    rintro (h | h | h)
    · omega
    · omega
    · cases h
  have hin : ¬ (state.blocks block).inTreeFlag = true := by simp [hhand.inTree]
  rw [buddySplit_eq_bind, takeOut, if_neg hin, bind_some, halve, if_neg hguard, hhand.order,
    Nat.add_sub_cancel, map_eq_bind]
  congr 1
  funext ⟨taken, new, supply'⟩
  simp only [comp_apply, insertTreeNode_eq hzone, bind_some]
  rfl

/-- The rule for the loop that splits a block: `holds above` is what holds while the block is
`above` orders too large. The loop returns if there are enough descriptors. -/
theorem splitDown_of_invariant {holds : ℕ → State → List Ptr → Prop}
    (hhand : ∀ {above state supply}, holds above state supply →
      InHand (state.blocks block) (order + above) ∧ order + above ≤ MAX_ORDER ∧
        (state.blocks block).zone < ZONES)
    (hstep : ∀ {above state supply taken new supply'}, holds (above + 1) state supply →
      buddyBlockGet state supply = some (taken, new, supply') →
      holds above (dividedState taken (state.blocks block) block new (order + above)) supply')
    (above : ℕ) : ∀ {state : State} {supply : List Ptr} (fuel : ℕ), holds above state supply →
      above < fuel →
      (∀ after, splitDown block order fuel state supply = some after →
        ∃ supply', holds 0 after supply') ∧
      (above ≤ (spareDescriptors state supply).length →
        (splitDown block order fuel state supply).isSome = true) := by
  induction above with
  | zero =>
    intro state supply fuel hholds hfuel
    obtain ⟨fuel, rfl⟩ : ∃ k, fuel = k + 1 := ⟨fuel - 1, by omega⟩
    rw [splitDown, if_pos (show (state.blocks block).order = order from (hhand hholds).1.order)]
    exact ⟨fun after h ↦ ⟨supply, some.inj h ▸ hholds⟩, fun _ ↦ rfl⟩
  | succ above ih =>
    intro state supply fuel hholds hfuel
    obtain ⟨fuel, rfl⟩ : ∃ k, fuel = k + 1 := ⟨fuel - 1, by omega⟩
    obtain ⟨hblock, hbound, hzone⟩ := hhand hholds
    have horder := hblock.order
    rw [splitDown, if_neg (by omega), if_neg (by omega),
      @buddySplit_eq state block supply (order + above) hblock hbound hzone]
    cases hget : buddyBlockGet state supply with
    | none =>
      refine ⟨fun after h ↦ (by cases h), fun henough ↦ ?_⟩
      have hsome := @buddyBlockGet_isSome state supply fun h ↦ by simp [h] at henough
      simp [hget] at hsome
    | some gotten =>
      obtain ⟨taken, new, supply'⟩ := gotten
      have hspare := congrArg length (buddyBlockGet_gotten hget).spare
      obtain ⟨hreturned, hret⟩ := ih fuel (hstep hholds hget) (by omega)
      refine ⟨hreturned, fun henough ↦ hret ?_⟩
      rw [hspare, length_cons] at henough
      exact Nat.le_of_succ_le_succ henough

theorem SameOrigin.trans (hfirst : SameOrigin before mid block)
    (hsecond : SameOrigin mid after block) : SameOrigin before after block :=
  ⟨hsecond.1.trans hfirst.1, hsecond.2.trans hfirst.2⟩

theorem Kept.trans (hfirst : Kept before mid others block)
    (hsecond : Kept mid after others block) : Kept before after others block where
  blocks other hother hne := (hsecond.blocks other hother hne).trans (hfirst.blocks other hother hne)
  table := hsecond.table.trans hfirst.table
  lists := hsecond.lists.trans hfirst.lists

/-- What holds while the loop splits a block of the accounts. -/
structure SplitSoFar (fits : ℕ → ℕ → Prop) (pages : List (ℕ × ℕ)) (before : State)
    (others : List Ptr) (block : Ptr) (order above : ℕ) (state : State) (supply : List Ptr) :
    Prop where
  accounted : Accounted fits pages state others
  inHand : InHand (state.blocks block) (order + above)
  origin : SameOrigin before state block
  kept : Kept before state others block
  supplied : Supplied state supply

theorem SplitSoFar.step {before : State} {above : ℕ} {supply' : List Ptr} (hhalving : Halving fits)
    (hblock : block ∈ others)
    (hsplitting : SplitSoFar fits pages before others block order (above + 1) state supply)
    (hget : buddyBlockGet state supply = some (taken, new, supply')) :
    SplitSoFar fits pages before others block order above
      (dividedState taken (state.blocks block) block new (order + above)) supply' := by
  obtain ⟨hacc, hhand, horigin, hkept, hsupplied⟩ := hsplitting
  obtain ⟨htaken, hsupplied'⟩ := buddyBlockGet_spec hacc hsupplied hget
  have hsound := hacc.sound block (mem_append_left _ hblock)
  have hbound : order + above + 1 ≤ MAX_ORDER := hhand.order ▸ hsound.order
  let split := splitState taken (state.blocks block) block new (order + above)
  have hsplit : Accounted fits pages split (new :: others) :=
    hacc.split htaken hblock hhalving hhand.order
  have hfiled : FiledUnder (state.blocks block).zone (order + above) (split.blocks new) := by
    simp only [split, splitState_new]
    exact ⟨rfl, rfl, by omega, rfl, fun _ ↦ rfl⟩
  have hlower : split.blocks block = lowerHalf (state.blocks block) new (order + above) :=
    splitState_block (htaken.ne hblock) ..
  refine ⟨hsplit.file hsound.zone hfiled, ?_, horigin.trans ?_, hkept.trans ?_, ?_⟩
  · change InHand (split.blocks block) (order + above)
    rw [hlower]
    exact ⟨rfl, hhand.isFree, hhand.inTree⟩
  · change SameOrigin state split block
    exact ⟨by rw [hlower]; rfl, by rw [hlower]; rfl⟩
  · refine ⟨fun other hother hother' ↦ ?_, htaken.table, htaken.lists⟩
    exact splitState_other htaken hother' (htaken.ne hother) _ _
  · exact ⟨hsupplied'.nodup, hsupplied'.nonnull, hsupplied'.dynamic, hsupplied'.notLive⟩

/-- **Splitting down to an order.** The loop ends with a block of the wanted order that starts
where the block started. -/
theorem splitDown_spec (hhalving : Halving fits) (hblock : block ∈ others) (order above : ℕ)
    {fuel : ℕ} (hfuel : above < fuel) (hacc : Accounted fits pages state others)
    (hhand : InHand (state.blocks block) (order + above)) (hsupplied : Supplied state supply) :
    (∀ after, splitDown block order fuel state supply = some after →
      ∃ supply', SplitSoFar fits pages state others block order 0 after supply') ∧
    (above ≤ (spareDescriptors state supply).length →
      (splitDown block order fuel state supply).isSome = true) := by
  refine splitDown_of_invariant (fun hsplitting ↦ ?_)
    (fun hsplitting hget ↦ hsplitting.step hhalving hblock hget) above fuel
    ⟨hacc, hhand, ⟨rfl, rfl⟩, ⟨fun _ _ _ ↦ rfl, rfl, rfl⟩, hsupplied⟩ hfuel
  have hsound := hsplitting.accounted.sound block (mem_append_left _ hblock)
  exact ⟨hsplitting.inHand, hsplitting.inHand.order ▸ hsound.order, hsound.zone⟩

end DionysOS.Memory.Pmm
