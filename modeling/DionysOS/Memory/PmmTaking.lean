import DionysOS.Memory.PmmSplitting

/-!
# Taking a block out of a tree

For a request below the maximal order `buddy_alloc` takes a block of the wanted order out of the
tree, or goes through the larger orders and splits the first block that it can use. `takeOrder` is
this part of the call. `allocOrder_eq` says that the call is `takeOrder` followed by the entry into
the table of used blocks, so that facts about the trees need not mention the table.

`takeLarger_outcome` is the rule for the loop over the larger orders. It holds for any condition on
the state that survives the removal of the first block under a key.
-/

namespace DionysOS.Memory.Pmm

open DataStructures Option State

/-- `searchLarger` without the entry into the table. -/
def takeLarger (zone order : ℕ) (supply : List Ptr) : ℕ → State → ℕ → Option (State × Ptr)
  | 0, _, _ => none
  | fuel + 1, state, index =>
      if index ≤ MAX_ORDER then do
        let (state, block) ← lookupTree state zone index
        let header := state.blocks block
        if block ≠ NULL ∧ header.startAddress ≠ 0 ∧ index ≤ header.order then
          let state := state.setBlock block { header with inTreeFlag := false }
          let state ← splitDown block order (MAX_ORDER + 1) state supply
          pure (state, block)
        else if block ≠ NULL ∧ header.order < index then
          let state ← removeTreeNode state zone index block
          takeLarger zone order supply fuel state index
        else takeLarger zone order supply fuel state (index + 1)
      else some (state, NULL)

/-- `allocOrder` without the entry into the table. -/
def takeOrder (state : State) (order zone : ℕ) (supply : List Ptr) : Option (State × Ptr) := do
  let (popped, block) ← lookupTree state zone order
  if block = NULL then
    takeLarger zone order supply ((filedBlocks state zone).length + MAX_ORDER + 2) popped (order + 1)
  else pure (popped.setBlock block { popped.blocks block with inTreeFlag := false }, block)

/-- The entry of the block that was taken into the table, if one was. -/
def enterUsed (allocation : Allocation) (taken : State × Ptr) : Option (State × Ptr) :=
  if taken.2 = NULL then some taken
  else (insertUsed taken.1 taken.2 allocation).map fun entered ↦ (entered, taken.2)

theorem enterUsed_null (alloc : Allocation) (state : State) :
    enterUsed alloc (state, NULL) = some (state, NULL) := if_pos rfl

variable {block : Ptr} {order zone : ℕ} {state : State}

theorem enterUsed_of_ne (alloc : Allocation) (state : State)
    (hne : block ≠ NULL) : enterUsed alloc (state, block) =
      (insertUsed state block alloc).map fun entered ↦ (entered, block) := if_neg hne

theorem searchLarger_eq (zone order : ℕ) (alloc : Allocation) (fuel : ℕ) :
    ∀ (state : State) (idx : ℕ), searchLarger zone order alloc fuel state idx =
      (takeLarger zone order alloc.descriptors fuel state idx).bind
        (enterUsed alloc) := by
  induction fuel with
  | zero => exact fun _ _ ↦ rfl
  | succ fuel ih =>
    intro state idx
    rw [searchLarger, takeLarger]
    split
    · cases lookupTree state zone idx with
      | none => simp only [bind_eq_bind, bind_none]
      | some found =>
        obtain ⟨popped, block⟩ := found
        simp only [bind_eq_bind, bind_some]
        split
        · rename_i hfound
          rw [bind_assoc]
          congr 1
          funext split
          rw [pure_def, bind_some, enterUsed_of_ne _ _ hfound.1, map_eq_bind]
          rfl
        · split
          · rw [bind_assoc]
            congr 1
            funext removed
            exact ih removed idx
          · exact ih popped (idx + 1)
    · rw [bind_some, enterUsed_null]

theorem insertUsed_setBlock (state : State) (block : Ptr) (alloc : Allocation)
    {header : BuddyBlock} (hstart : header.startAddress = (state.blocks block).startAddress) :
    insertUsed (state.setBlock block header) block alloc =
      (insertUsed state block alloc).map fun entered ↦ entered.setBlock block header := by
  have haddr : ((state.setBlock block header).blocks block).startAddress =
      (state.blocks block).startAddress := by
    rw [← hstart]
    simp [setBlock]
  simp only [insertUsed, haddr, bind_eq_bind, map_bind]
  rfl

theorem allocOrder_eq (state : State) (order zone : ℕ) (alloc : Allocation) :
    allocOrder state order zone alloc =
      (takeOrder state order zone alloc.descriptors).bind (enterUsed alloc) := by
  simp only [allocOrder, takeOrder, bind_eq_bind, bind_assoc]
  congr 1
  funext found
  obtain ⟨popped, block⟩ := found
  simp only
  split
  · rw [searchLarger_eq]
  · rename_i hnonnull
    have hstart : { popped.blocks block with inTreeFlag := false }.startAddress =
        (popped.blocks block).startAddress := rfl
    rw [pure_def, bind_some, enterUsed_of_ne _ _ hnonnull,
      insertUsed_setBlock popped block alloc hstart, map_map, map_eq_bind]
    -- The entry changes no header.
    simp only [insertUsed, bind_eq_bind, bind_assoc]
    congr 1

/-- `holds` survives every write of the code that takes blocks. -/
structure Stable (supply : List Ptr) (holds : State → Prop) : Prop where
  blocks : ∀ {state} blocks, holds state → holds { state with blocks := blocks }
  trees : ∀ {state} trees, holds state → holds { state with buddyFreeListZone := trees }
  unused : ∀ {state} rest, holds state → holds { state with unusedBuddyBlocksList := rest }
  kalloc : ∀ {state}, ∀ block ∈ supply, holds state →
    holds { state with kallocLive := block :: state.kallocLive }

section Stable

variable {supply rest : List Ptr} {holds : State → Prop} (hstable : Stable supply holds)
  {state after : State} {zone order : ℕ} {block : Ptr}

include hstable

theorem Stable.onTree {op : BinaryTree.Operation} {result : ℕ} (hholds : holds state)
    (hcall : state.onTree zone op = some (after, result)) : holds after := by
  unfold State.onTree at hcall
  split at hcall
  · cases hcall
    exact hstable.trees _ hholds
  · cases hcall

theorem Stable.insertTreeNode (hholds : holds state)
    (hcall : insertTreeNode state zone block order = some after) : holds after := by
  obtain ⟨⟨_, _⟩, htree, rfl⟩ := map_eq_some_iff.mp hcall
  exact hstable.onTree hholds htree

theorem Stable.removeTreeNode (hholds : holds state)
    (hcall : removeTreeNode state zone order block = some after) : holds after := by
  obtain ⟨⟨_, _⟩, htree, rfl⟩ := map_eq_some_iff.mp hcall
  exact hstable.onTree hholds htree

theorem Stable.buddySplit {rest' : List Ptr} (hrest : rest ⊆ supply) (hholds : holds state)
    (hcall : buddySplit state block rest = some (after, rest')) : holds after ∧ rest' ⊆ supply := by
  rw [buddySplit_eq_bind] at hcall
  obtain ⟨middle, hout, hhalve⟩ := bind_eq_some_iff.mp hcall
  have hmiddle : holds middle := by
    unfold takeOut at hout
    split at hout
    · obtain ⟨removed, hremoved, rfl⟩ := map_eq_some_iff.mp hout
      exact hstable.blocks _ (hstable.removeTreeNode hholds hremoved)
    · cases hout
      exact hholds
  unfold halve at hhalve
  split at hhalve
  · cases hhalve
  obtain ⟨⟨taken, new, supply'⟩, hget, hhalve⟩ := bind_eq_some_iff.mp hhalve
  obtain ⟨filed, hfiled, heq⟩ := bind_eq_some_iff.mp hhalve
  cases heq
  have htaken : holds taken ∧ rest' ⊆ supply := by
    unfold buddyBlockGet at hget
    split at hget
    · cases hget
      exact ⟨hstable.unused _ hmiddle, hrest⟩
    · cases hget
    · cases hget
      obtain ⟨hnew, hrest⟩ := List.cons_subset.mp hrest
      exact ⟨hstable.kalloc new hnew (hstable.blocks _ hmiddle), hrest⟩
  exact ⟨hstable.insertTreeNode (hstable.blocks _ (hstable.blocks _ htaken.1)) hfiled, htaken.2⟩

theorem Stable.splitDown : ∀ (fuel : ℕ) {state : State} {rest : List Ptr}, rest ⊆ supply →
    holds state → splitDown block order fuel state rest = some after → holds after
  | 0, _, _, _, _, hcall => by cases hcall
  | fuel + 1, state, rest, hrest, hholds, hcall => by
      unfold Pmm.splitDown at hcall
      split at hcall
      · cases hcall
        exact hholds
      · split at hcall
        · cases hcall
        · obtain ⟨⟨mid, rest'⟩, hmiddle, hloop⟩ := bind_eq_some_iff.mp hcall
          obtain ⟨hholds', hrest'⟩ := hstable.buddySplit hrest hholds hmiddle
          exact Stable.splitDown fuel hrest' hholds' hloop

theorem Stable.takeLarger : ∀ (fuel : ℕ) {state : State} {idx : ℕ}, holds state →
    takeLarger zone order supply fuel state idx = some (after, block) → holds after
  | 0, _, _, _, hcall => by cases hcall
  | fuel + 1, state, idx, hholds, hcall => by
      unfold Pmm.takeLarger at hcall
      split at hcall
      · obtain ⟨⟨popped, found⟩, hlookup, hcall⟩ := bind_eq_some_iff.mp hcall
        have hpopped := hstable.onTree hholds hlookup
        simp only at hcall
        split at hcall
        · obtain ⟨split, hsplit, heq⟩ := bind_eq_some_iff.mp hcall
          cases heq
          exact hstable.splitDown _ (List.Subset.refl _) (hstable.blocks _ hpopped) hsplit
        · split at hcall
          · obtain ⟨removed, hremoved, hloop⟩ := bind_eq_some_iff.mp hcall
            exact Stable.takeLarger fuel (hstable.removeTreeNode hpopped hremoved) hloop
          · exact Stable.takeLarger fuel hpopped hcall
      · cases hcall
        exact hholds

theorem Stable.takeOrder (hholds : holds state)
    (hcall : takeOrder state order zone supply = some (after, block)) : holds after := by
  obtain ⟨⟨popped, found⟩, hlookup, hcall⟩ := bind_eq_some_iff.mp hcall
  have hpopped := hstable.onTree hholds hlookup
  simp only at hcall
  split at hcall
  · exact hstable.takeLarger _ hpopped hcall
  · cases hcall
    exact hstable.blocks _ hpopped

end Stable

/-- The search can use the first block filed under `key`. -/
def Usable (state : State) (zone key : ℕ) : Prop :=
  ∃ block, (state.buddyFreeListZone zone key).head? = some block ∧
    (state.blocks block).startAddress ≠ 0

instance (state : State) (zone key : ℕ) : Decidable (Usable state zone key) :=
  inferInstanceAs (Decidable (∃ block, block ∈ (state.buddyFreeListZone zone key).head? ∧ _))

/-- The state in which the search splits `block`, which was the first one under `key`. -/
def inHandState (state : State) (zone key : ℕ) (block : Ptr) (rest : List Ptr) : State :=
  (state.setEntries zone key rest).setBlock block { state.blocks block with inTreeFlag := false }

theorem takeOrder_of_nil (hzone : zone < ZONES)
    (htree : state.buddyFreeListZone zone order = []) (supply : List Ptr) :
    takeOrder state order zone supply = takeLarger zone order supply
      ((filedBlocks state zone).length + MAX_ORDER + 2) state (order + 1) := by
  have hsame : state.setEntries zone order [] = state := by
    rw [← htree]
    exact setEntries_self state zone order
  rw [takeOrder, lookupTree_eq hzone, htree]
  simp [hsame]

theorem takeOrder_of_cons {rest : List Ptr}
    (hzone : zone < ZONES) (htree : state.buddyFreeListZone zone order = block :: rest)
    (hne : block ≠ NULL) (horder : (state.blocks block).order = order) (supply : List Ptr) :
    takeOrder state order zone supply = (splitDown block order (MAX_ORDER + 1)
      (inHandState state zone order block rest) supply).map fun split ↦ (split, block) := by
  have hdone : ((inHandState state zone order block rest).blocks block).order = order := by
    simpa [inHandState, setBlock] using horder
  rw [splitDown, if_pos hdone, takeOrder, lookupTree_eq hzone, htree]
  simp only [List.headD_cons, List.tail_cons, bind_eq_bind, bind_some, if_neg hne]
  rfl

/-- What the search over the orders from `index` on comes to. `holds` relates the state to the
blocks that the search has dropped because they start at address zero. -/
inductive LargerOutcome (holds : State → List Ptr → Prop) (zone order index : ℕ)
    (supply : List Ptr) (state : State) (dropped : List Ptr) (result : Option (State × Ptr)) : Prop
  | nothing (after : State) (dropped' : List Ptr) (hresult : result = some (after, NULL))
      (hholds : holds after dropped')
      (hnone : ∀ key, index ≤ key → key ≤ MAX_ORDER → ¬ Usable state zone key)
      (hempty : (∀ key, index ≤ key → key ≤ MAX_ORDER → state.buddyFreeListZone zone key = []) →
        after = state ∧ dropped' = dropped)
  | found (key : ℕ) (middle : State) (dropped' : List Ptr) (block : Ptr) (rest : List Ptr)
      (hindex : index ≤ key) (hkey : key ≤ MAX_ORDER) (husable : Usable state zone key)
      (hleast : ∀ lower, index ≤ lower → lower < key → ¬ Usable state zone lower)
      (hholds : holds middle dropped') (htree : middle.buddyFreeListZone zone key = block :: rest)
      (hempty : (∀ lower, index ≤ lower → lower < key → state.buddyFreeListZone zone lower = []) →
        middle = state ∧ dropped' = dropped)
      (hresult : result = (splitDown block order (MAX_ORDER + 1)
        (inHandState middle zone key block rest) supply).map fun split ↦ (split, block))

theorem LargerOutcome.skip {holds : State → List Ptr → Prop} {supply dropped dropped' : List Ptr}
    {idx : ℕ} {popped : State} {result : Option (State × Ptr)}
    (hunusable : ¬ Usable state zone idx) (hend : idx ≤ MAX_ORDER)
    (hother : ∀ key, idx < key → popped.buddyFreeListZone zone key = state.buddyFreeListZone zone key)
    (hblocks : popped.blocks = state.blocks)
    (hsame : state.buddyFreeListZone zone idx = [] → popped = state ∧ dropped' = dropped)
    (hrest : LargerOutcome holds zone order (idx + 1) supply popped dropped' result) :
    LargerOutcome holds zone order idx supply state dropped result := by
  have husable : ∀ key, idx < key → (Usable popped zone key ↔ Usable state zone key) := by
    intro key hlt
    rw [Usable, Usable, hother key hlt, hblocks]
  cases hrest with
  | nothing after final hres hholds hnone hempty =>
    refine .nothing after final hres hholds (fun key hle hmax ↦ ?_) fun hall ↦ ?_
    · rcases eq_or_lt_of_le hle with rfl | hlt
      · exact hunusable
      · rw [← husable key hlt]
        exact hnone key hlt hmax
    · obtain ⟨rfl, rfl⟩ := hsame (hall idx le_rfl hend)
      exact hempty fun key hle hmax ↦ hall key (by omega) hmax
  | found key mid final block rest hle hkey hfirst hleast hholds htree hempty hres =>
    refine .found key mid final block rest (by omega) hkey ((husable key hle).mp hfirst)
      (fun lower hle' hlt ↦ ?_) hholds htree (fun hall ↦ ?_) hres
    · rcases eq_or_lt_of_le hle' with rfl | hlt'
      · exact hunusable
      · rw [← husable lower hlt']
        exact hleast lower hlt' hlt
    · obtain ⟨rfl, rfl⟩ := hsame (hall idx le_rfl hle)
      exact hempty fun lower hle' hlt ↦ hall lower (by omega) hlt

theorem takeLarger_outcome {holds : State → List Ptr → Prop} (hzone : zone < ZONES)
    (hfiled : ∀ {state dropped key block}, holds state dropped →
      block ∈ state.buddyFreeListZone zone key →
        block ≠ NULL ∧ (state.blocks block).order = key)
    (hdrop : ∀ {state dropped key block rest}, holds state dropped →
      state.buddyFreeListZone zone key = block :: rest →
        holds (state.setEntries zone key rest) (block :: dropped)) (order : ℕ) (supply : List Ptr) :
    ∀ (fuel : ℕ) {state : State} {dropped : List Ptr} {index : ℕ}, holds state dropped →
      index ≤ MAX_ORDER + 1 → MAX_ORDER + 1 < index + fuel →
      LargerOutcome holds zone order index supply state dropped
        (takeLarger zone order supply fuel state index) := by
  intro fuel
  induction fuel with
  | zero =>
    intro state dropped index _ hidx hfuel
    omega
  | succ fuel ih =>
    intro state dropped index hholds hidx hfuel
    by_cases hend : index ≤ MAX_ORDER
    · cases htree : state.buddyFreeListZone zone index with
      | nil =>
        have hsame : state.setEntries zone index [] = state := by
          rw [← htree]
          exact setEntries_self state zone index
        have hnext : takeLarger zone order supply (fuel + 1) state index =
            takeLarger zone order supply fuel state (index + 1) := by
          rw [takeLarger, if_pos hend, lookupTree_eq hzone, htree]
          simp [hsame]
        have hunusable : ¬ Usable state zone index := by simp [Usable, htree]
        rw [hnext]
        exact .skip hunusable hend (fun _ _ ↦ rfl) rfl (fun _ ↦ ⟨rfl, rfl⟩)
          (ih hholds (Nat.succ_le_succ hend) (by omega))
      | cons block rest =>
        obtain ⟨hnonnull, horder⟩ := hfiled hholds
          (show block ∈ state.buddyFreeListZone zone index by simp [htree])
        let popped := state.setEntries zone index rest
        have hlookup : lookupTree state zone index = some (popped, block) := by
          rw [lookupTree_eq hzone, htree]
          rfl
        by_cases hstart : (state.blocks block).startAddress = 0
        · -- The block at address zero is in no tree any more when the search goes on.
          have hnext : takeLarger zone order supply (fuel + 1) state index =
              takeLarger zone order supply fuel popped (index + 1) := by
            rw [takeLarger, if_pos hend, hlookup]
            simp only [bind_eq_bind, bind_some]
            rw [if_neg (fun h ↦ h.2.1 hstart), if_neg]
            rintro ⟨-, h⟩
            exact absurd horder h.ne
          have hunusable : ¬ Usable state zone index := by simp [Usable, htree, hstart]
          have hother : ∀ key, index < key →
              popped.buddyFreeListZone zone key = state.buddyFreeListZone zone key := by
            intro key hlt
            simp [popped, setEntries, hlt.ne']
          rw [hnext]
          exact .skip hunusable hend hother rfl (by simp [htree])
            (ih (hdrop hholds htree) (Nat.succ_le_succ hend) (by omega))
        · refine .found index state dropped block rest le_rfl hend ⟨block, by simp [htree], hstart⟩
            (fun lower hle hlt ↦ absurd hle (not_le.mpr hlt)) hholds htree
            (fun _ ↦ ⟨rfl, rfl⟩) ?_
          rw [takeLarger, if_pos hend, hlookup]
          simp only [bind_eq_bind, bind_some]
          rw [if_pos ⟨hnonnull, hstart, horder.ge⟩]
          rw [map_eq_bind]
          rfl
    · refine .nothing state dropped (by rw [takeLarger, if_neg hend]) hholds ?_
        fun _ ↦ ⟨rfl, rfl⟩
      intro key hle hmax
      omega

end DionysOS.Memory.Pmm
