import DionysOS.Memory.PmmBooks

/-!
# Large allocations

`buddy_alloc_large_range` serves requests above the maximal order. It takes the first filed block
of the maximal order, follows the chain of successors, and takes as many of them out of the tree as
the request has whole blocks.

The walk along the chain compares orders and zones. It looks neither at addresses nor at the status
of the blocks, and the rest of a request that is no multiple of a block is not counted. `LargeFits`
is the condition that makes up for this, and `physAlloc_large` says what the call does under it.
-/

namespace DionysOS.Memory.Pmm

open DataStructures List Option Prod State

def chainFrom (blocks : BlockMemory) : ℕ → Ptr → List Ptr
  | 0, _ => []
  | count + 1, block => block :: chainFrom blocks count (blocks block).next

/-- The chain is filed, each block starts where the one before it ends, and there is room for the
run of pages. -/
def ChainFits (room : ℕ → ℕ → Prop) (state : State) (zone count : ℕ) (block : Ptr) : Prop :=
  (∀ member ∈ chainFrom state.blocks count block, member ∈ state.buddyFreeListZone zone MAX_ORDER) ∧
    ((chainFrom state.blocks count block).map fun member ↦ (state.blocks member).startAddress) =
      ((range count).map fun index ↦
        (state.blocks block).startAddress + index * (2 ^ MAX_ORDER * PAGE_SIZE)) ∧
    room (state.blocks block).startAddress (count * 2 ^ MAX_ORDER)

/-- The request is a whole number of blocks, and every chain that the code would accept fits. -/
def LargeFits (room : ℕ → ℕ → Prop) (state : State) (request zone : ℕ) : Prop :=
  request % 2 ^ MAX_ORDER = 0 ∧
    ∀ block ∈ state.buddyFreeListZone zone MAX_ORDER,
      walkChain state.blocks (maxBlocks request - 1) block = some (maxBlocks request - 1) →
        ChainFits room state zone (maxBlocks request) block

instance (room : ℕ → ℕ → Prop) [DecidableRel room] (state : State) (zone count : ℕ) (block : Ptr) :
    Decidable (ChainFits room state zone count block) :=
  instDecidableAnd

instance (room : ℕ → ℕ → Prop) [DecidableRel room] (state : State) (request zone : ℕ) :
    Decidable (LargeFits room state request zone) :=
  instDecidableAnd

theorem maxBlocks_eq (request : ℕ) : maxBlocks request = request / 2 ^ MAX_ORDER := by
  simp [maxBlocks, Nat.mod_one]

theorem chainFrom_congr {blocks blocks' : BlockMemory}
    (hnext : ∀ block, (blocks' block).next = (blocks block).next) :
    ∀ (count : ℕ) (block : Ptr), chainFrom blocks' count block = chainFrom blocks count block
  | 0, _ => rfl
  | count + 1, block => by
      rw [chainFrom, chainFrom, hnext, chainFrom_congr hnext count]

theorem walkChain_le {blocks : BlockMemory} : ∀ {remaining following : ℕ} {ptr : Ptr},
    walkChain blocks remaining ptr = some following → following ≤ remaining
  | 0, following, ptr, hwalk => by
      unfold walkChain at hwalk
      split at hwalk
      · cases hwalk
      · exact (some.inj hwalk).ge
  | remaining + 1, following, ptr, hwalk => by
      unfold walkChain at hwalk
      simp only at hwalk
      split at hwalk
      · cases hwalk
      · split at hwalk
        · obtain ⟨further, hfurther, rfl⟩ := map_eq_some_iff.mp hwalk
          exact Nat.succ_le_succ (walkChain_le hfurther)
        · exact (some.inj hwalk) ▸ Nat.zero_le _

theorem walkChain_complete {blocks : BlockMemory} : ∀ {count : ℕ} {block : Ptr},
    walkChain blocks count block = some count →
      ∀ member ∈ chainFrom blocks count (blocks block).next,
        member ≠ NULL ∧ (blocks member).order = MAX_ORDER ∧
          (blocks member).zone = (blocks block).zone
  | 0, block, _, member, hmem => by simp [chainFrom] at hmem
  | count + 1, block, hwalk, member, hmem => by
      obtain ⟨hnull, hwalk⟩ := ite_none_left_eq_some.mp hwalk
      split at hwalk
      · rename_i hnext
        obtain ⟨further, hfurther, heq⟩ := map_eq_some_iff.mp hwalk
        obtain rfl : further = count := Nat.succ.inj heq
        rcases mem_cons.mp hmem with rfl | hmem
        · exact ⟨hnull, hnext.1, hnext.2.symm⟩
        · obtain ⟨hne, horder, hzone⟩ := walkChain_complete hfurther member hmem
          exact ⟨hne, horder, hzone.trans hnext.2.symm⟩
      · cases hwalk

theorem chainPages_contiguous {blocks : BlockMemory} {start : ℕ} :
    ∀ {chain : List Ptr} (first : ℕ), (∀ block ∈ chain, (blocks block).order = MAX_ORDER) →
      (chain.map fun block ↦ (blocks block).startAddress) =
        ((range' first chain.length).map fun idx ↦ start + idx * (2 ^ MAX_ORDER * PAGE_SIZE)) →
      chainPages blocks chain = range' (start / PAGE_SIZE + first * 2 ^ MAX_ORDER)
        (chain.length * 2 ^ MAX_ORDER)
  | [], first, _, _ => by simp [chainPages]
  | block :: chain, first, horder, hstart => by
      rw [length_cons, range'_succ, map_cons, map_cons, cons.injEq] at hstart
      obtain ⟨hfirst, hrest⟩ := hstart
      have htail := chainPages_contiguous (first + 1)
        (fun other hother ↦ horder other (mem_cons_of_mem _ hother)) hrest
      have hhead : blockPages (blocks block) =
          range' (start / PAGE_SIZE + first * 2 ^ MAX_ORDER) (2 ^ MAX_ORDER) := by
        rw [blockPages, hfirst, horder block mem_cons_self, ← mul_assoc,
          Nat.add_mul_div_right _ _ (by decide)]
      have hnext : start / PAGE_SIZE + (first + 1) * 2 ^ MAX_ORDER =
          start / PAGE_SIZE + first * 2 ^ MAX_ORDER + 2 ^ MAX_ORDER := by
        rw [Nat.succ_mul, add_assoc]
      have hlen : (chain.length + 1) * 2 ^ MAX_ORDER =
          2 ^ MAX_ORDER + chain.length * 2 ^ MAX_ORDER := by
        rw [Nat.succ_mul, add_comm]
      rw [hnext] at htail
      calc chainPages blocks (block :: chain)
          = blockPages (blocks block) ++ chainPages blocks chain := flatMap_cons ..
        _ = _ := by rw [hhead, htail, range'_append_1, length_cons, hlen]

theorem length_chainFrom (blocks : BlockMemory) : ∀ (count : ℕ) (block : Ptr),
    (chainFrom blocks count block).length = count
  | 0, _ => rfl
  | count + 1, block => by rw [chainFrom, length_cons, length_chainFrom blocks count]

variable {after : State} {request : ℕ}

section Taking

variable {fits room : ℕ → ℕ → Prop} {pages : List (ℕ × ℕ)} {state : State} {others : List Ptr}
  {zone : ℕ}

theorem chainFrom_live (hacc : Accounted fits pages state others) :
    ∀ {count : ℕ} {block : Ptr}, block ∈ live state others →
      (∀ member ∈ chainFrom state.blocks count (state.blocks block).next,
        member ≠ NULL ∧ (state.blocks member).order = MAX_ORDER) →
      ∀ member ∈ chainFrom state.blocks count (state.blocks block).next, member ∈ live state others
  | 0, block, _, _, member, hmem => by simp [chainFrom] at hmem
  | count + 1, block, hblock, hchain, member, hmem => by
      obtain ⟨hne, horder⟩ := hchain _ mem_cons_self
      have hlive := hacc.next_mem_live hblock hne horder.le
      rcases mem_cons.mp hmem with rfl | hmem
      · exact hlive
      · exact chainFrom_live hacc hlive
          (fun other hother ↦ hchain other (mem_cons_of_mem _ hother)) member hmem

variable {key : ℕ} {pointer ptr first : Ptr} {rest : List Ptr} {Field : Type}

theorem mem_live_setEntries (hzone : zone < ZONES) (hkey : key ≤ MAX_ORDER) {member : Ptr}
    (hperm : state.buddyFreeListZone zone key ~ [ptr] ++ rest)
    (hmem : member ∈ live state others) :
    member ∈ live (state.setEntries zone key rest) (ptr :: others) := by
  have hall := allFiled_setEntries hkey hzone hperm
  simp only [live, mem_append, mem_cons, hall.mem_iff, not_mem_nil, or_false]
    at hmem ⊢
  tauto

/-- A block leaves its tree, if it is in one, and is marked. -/
def takeOne (state : State) (zone : ℕ) (pointer : Ptr) : State :=
  (state.setEntries zone MAX_ORDER
    ((state.buddyFreeListZone zone MAX_ORDER).erase pointer)).setBlock pointer
      { state.blocks pointer with isFree := .used }

/-- The state when the blocks of `chain` have left the tree and are marked. -/
def takenChain (state : State) (zone : ℕ) (chain : List Ptr) : State :=
  { state.setEntries zone MAX_ORDER ((state.buddyFreeListZone zone MAX_ORDER).diff chain) with
    blocks := fun block ↦
      if block ∈ chain then { state.blocks block with isFree := .used } else state.blocks block }

theorem takeOne_field (field : BuddyBlock → Field)
    (hfield : ∀ hdr, field { hdr with isFree := .used } = field hdr) (state : State)
    (zone : ℕ) (ptr block : Ptr) :
    field ((takeOne state zone ptr).blocks block) = field (state.blocks block) := by
  by_cases h : block = ptr
  · subst h
    simp [takeOne, setBlock, hfield]
  · simp [takeOne, setBlock, setEntries, h]

theorem takenChain_takeOne (state : State) (zone : ℕ) (ptr : Ptr) (chain : List Ptr) :
    takenChain (takeOne state zone ptr) zone chain = takenChain state zone (ptr :: chain) := by
  have hblocks : (fun block ↦ if block ∈ chain then
      { (takeOne state zone ptr).blocks block with isFree := .used }
      else (takeOne state zone ptr).blocks block) =
      fun block ↦ if block ∈ ptr :: chain then { state.blocks block with isFree := .used }
        else state.blocks block := by
    funext block
    by_cases h : block = ptr
    · subst h
      simp [takeOne, setBlock]
    · simp [takeOne, setBlock, setEntries, h]
  unfold takenChain
  rw [hblocks, diff_cons]
  simp [takeOne, setBlock, setEntries]

theorem takeChain_eq (hzone : zone < ZONES) : ∀ (count : ℕ) {state : State} {ptr : Ptr},
    (∀ member ∈ chainFrom state.blocks count ptr,
      member ≠ NULL ∧ (state.blocks member).order = MAX_ORDER) →
    takeChain zone count state ptr =
      some (takenChain state zone (chainFrom state.blocks count ptr))
  | 0, state, ptr, _ => by simp [takeChain, takenChain, chainFrom]
  | count + 1, state, ptr, hchain => by
      obtain ⟨hnonnull, horder⟩ := hchain ptr mem_cons_self
      have hnext := takeOne_field BuddyBlock.next (fun _ ↦ rfl) state zone ptr
      have htail := chainFrom_congr hnext count (state.blocks ptr).next
      rw [takeChain, if_neg hnonnull, horder, removeTreeNode_eq hzone]
      change takeChain zone count (takeOne state zone ptr)
        ((takeOne state zone ptr).blocks ptr).next = _
      rw [hnext, takeChain_eq hzone count (by
          intro member hmem
          rw [htail] at hmem
          obtain ⟨hne, horder'⟩ := hchain member (mem_cons_of_mem _ hmem)
          exact ⟨hne, (takeOne_field BuddyBlock.order (fun _ ↦ rfl) ..).trans horder'⟩),
        htail, takenChain_takeOne, chainFrom]

theorem Accounted.takeOne (hacc : Accounted fits pages state others) (hzone : zone < ZONES)
    (hpointer : ptr ∈ live state others)
    (horder : (state.blocks ptr).order = MAX_ORDER) (hsame : (state.blocks ptr).zone = zone) :
    ∃ others', Accounted fits pages (takeOne state zone ptr) others' ∧ others ⊆ others' ∧
      (∀ member ∈ live state others, member ∈ live (takeOne state zone ptr) others') ∧
      (ptr ∈ state.buddyFreeListZone zone MAX_ORDER → others' = ptr :: others) := by
  rcases mem_append.mp hpointer with hothers | hfiled
  · have hnotMem : ptr ∉ state.buddyFreeListZone zone MAX_ORDER :=
      hacc.notMem_filed hothers hzone
    refine ⟨others, ?_, Subset.refl _, fun member hmember ↦ ?_, fun h ↦ absurd h hnotMem⟩
    · unfold Pmm.takeOne
      rw [erase_of_not_mem hnotMem, setEntries_self]
      exact hacc.setBlock hothers _ rfl rfl rfl rfl rfl
    · unfold Pmm.takeOne
      rw [erase_of_not_mem hnotMem, setEntries_self]
      exact hmember
  · obtain ⟨zone', hzone', key, hkey, hmem⟩ := mem_allFiled.mp hfiled
    have hunder := hacc.filed zone' hzone' key ptr hmem
    obtain rfl : zone' = zone := hunder.zone.symm.trans hsame
    obtain rfl : key = MAX_ORDER := hunder.order.symm.trans horder
    have hperm := perm_cons_erase hmem
    have hunfiled := hacc.unfile hzone hperm
    refine ⟨ptr :: others, hunfiled.setBlock mem_cons_self _ rfl rfl rfl rfl rfl,
      subset_cons_self .., fun member hmember ↦ ?_, fun _ ↦ rfl⟩
    exact mem_live_setEntries hzone hkey hperm hmember

theorem Accounted.takenChain (hzone : zone < ZONES) : ∀ (chain : List Ptr) {state : State}
    {others : List Ptr}, Accounted fits pages state others →
      (∀ member ∈ chain, member ∈ live state others ∧ (state.blocks member).order = MAX_ORDER ∧
        (state.blocks member).zone = zone) →
      ∃ others', Accounted fits pages (takenChain state zone chain) others' ∧ others ⊆ others' ∧
        (chain.Nodup → (∀ member ∈ chain, member ∈ state.buddyFreeListZone zone MAX_ORDER) →
          others' ~ chain ++ others)
  | [], state, others, hacc, _ => by
      refine ⟨others, ?_, Subset.refl _, fun _ _ ↦ .refl _⟩
      simpa [Pmm.takenChain] using hacc
  | pointer :: chain, state, others, hacc, hchain => by
      obtain ⟨hlive, horder, hsame⟩ := hchain pointer mem_cons_self
      obtain ⟨others', htaken, hsubset, hkept, hfiled⟩ :=
        hacc.takeOne hzone hlive horder hsame
      obtain ⟨others'', hafter, hsubset', hperm⟩ := Accounted.takenChain hzone chain htaken (by
        intro member hmember
        obtain ⟨hmem, horder', hsame'⟩ := hchain member (mem_cons_of_mem _ hmember)
        exact ⟨hkept member hmem, (takeOne_field BuddyBlock.order (fun _ ↦ rfl) ..).trans horder',
          (takeOne_field BuddyBlock.zone (fun _ ↦ rfl) ..).trans hsame'⟩)
      rw [takenChain_takeOne] at hafter
      refine ⟨others'', hafter, Subset.trans hsubset hsubset', fun hnodup hmem ↦ ?_⟩
      obtain ⟨hnotMem, hnodup⟩ := nodup_cons.mp hnodup
      -- The rest of the chain is still filed, as it does not come back to `pointer`.
      have hrest := hperm hnodup fun member hmember ↦ by
        have hne : member ≠ pointer := ne_of_mem_of_not_mem hmember hnotMem
        simpa [Pmm.takeOne, State.setBlock, State.setEntries] using
          (mem_erase_of_ne hne).mpr (hmem member (mem_cons_of_mem _ hmember))
      rw [hfiled (hmem pointer mem_cons_self)] at hrest
      exact hrest.trans perm_middle

/-- What `buddy_alloc_large_range` leaves behind when it returns `block`. -/
structure ChainTaken (fits room : ℕ → ℕ → Prop) (pages : List (ℕ × ℕ)) (before after : State)
    (others chain : List Ptr) (block : Ptr) (count : ℕ) : Prop where
  accounted : Accounted fits pages after (chain ++ others)
  mem : block ∈ chain
  used : ∀ member ∈ chain, member ≠ block → (after.blocks member).isFree = .used
  pages : chainPages after.blocks chain =
    range' ((after.blocks block).startAddress / PAGE_SIZE) (count * 2 ^ MAX_ORDER)
  room : room (after.blocks block).startAddress (count * 2 ^ MAX_ORDER)
  kept : ∀ other ∈ others, after.blocks other = before.blocks other
  table : after.usedBuddyHashTable = before.usedBuddyHashTable
  lists : after.lists = before.lists

/-- The block that an attempt takes, with the length of its chain noted. -/
def markChain (state : State) (zone length : ℕ) (first : Ptr) (rest : List Ptr) : State :=
  (state.setEntries zone MAX_ORDER rest).setBlock first
    { state.blocks first with buddyChainLength := length, inTreeFlag := false }

theorem markChain_block (state : State) (zone length : ℕ) (first : Ptr) (rest : List Ptr) :
    (markChain state zone length first rest).blocks first =
      { state.blocks first with buddyChainLength := length, inTreeFlag := false } := by
  simp [markChain, setBlock]

theorem markChain_other {other : Ptr} (hne : other ≠ first) (state : State)
    (zone length : ℕ) (rest : List Ptr) :
    (markChain state zone length first rest).blocks other = state.blocks other := by
  simp [markChain, setBlock, setEntries, hne]

theorem markChain_field (field : BuddyBlock → Field) (hfield : ∀ hdr length, field { hdr with
      buddyChainLength := length, inTreeFlag := false } = field hdr) (state : State)
    (zone length : ℕ) (first : Ptr) (rest : List Ptr) (block : Ptr) :
    field ((markChain state zone length first rest).blocks block) = field (state.blocks block) := by
  by_cases h : block = first
  · rw [h, markChain_block, hfield]
  · rw [markChain_other h]

theorem largeAttempt_cons (hzone : zone < ZONES)
    (htree : state.buddyFreeListZone zone MAX_ORDER = first :: rest) (hne : first ≠ NULL)
    (horder : (state.blocks first).order = MAX_ORDER) (request attempts : ℕ) :
    largeAttempt request zone (attempts + 1) state =
      (walkChain state.blocks (maxBlocks request - 1) first).bind fun following ↦
        if 1 + following < maxBlocks request then
          largeAttempt request zone attempts (state.setEntries zone MAX_ORDER (rest ++ [first]))
        else
          (takeChain zone (maxBlocks request - 1)
              (markChain state zone (maxBlocks request) first rest) (state.blocks first).next).bind
            fun taken ↦ some ({ taken with totalAllocated :=
              (taken.totalAllocated + 2 ^ MAX_ORDER * maxBlocks request) % 2 ^ 64 }, first) := by
  let popped := state.setEntries zone MAX_ORDER rest
  have hlookup : lookupTree state zone MAX_ORDER = some (popped, first) := by
    rw [lookupTree_eq hzone, htree]
    rfl
  have hskip : skipWrongOrder zone ((popped.buddyFreeListZone zone MAX_ORDER).length + 2) popped
      first = some (popped, first) := by
    rw [skipWrongOrder, if_neg]
    rintro ⟨-, h⟩
    exact h horder
  have hback : insertTreeNode popped zone first (popped.blocks first).order =
      some (state.setEntries zone MAX_ORDER (rest ++ [first])) := by
    rw [insertTreeNode_eq hzone, show (popped.blocks first).order = MAX_ORDER from horder]
    simp [popped, setEntries]
  have hnext : ((popped.setBlock first { popped.blocks first with
      buddyChainLength := maxBlocks request, inTreeFlag := false }).blocks first).next =
      (state.blocks first).next := by
    simp [popped, setBlock, setEntries]
  simp only [largeAttempt, hlookup, bind_eq_bind, bind_some, if_neg hne, hskip, hback, hnext]
  rfl

/-- The attempt that succeeds, in the state `middle` that the attempts before it have left. -/
structure Succeeds (request zone : ℕ) (middle after : State) (block : Ptr) (rest : List Ptr) :
    Prop where
  tree : middle.buddyFreeListZone zone MAX_ORDER = block :: rest
  walk : walkChain middle.blocks (maxBlocks request - 1) block = some (maxBlocks request - 1)
  taken : ∃ taken, takeChain zone (maxBlocks request - 1)
      (markChain middle zone (maxBlocks request) block rest) (middle.blocks block).next = some taken ∧
    after = { taken with totalAllocated :=
      (taken.totalAllocated + 2 ^ MAX_ORDER * maxBlocks request) % 2 ^ 64 }

/-- The blocks behind `block` that a call with the given request takes as well. -/
def chainBehind (blocks : BlockMemory) (request : ℕ) (block : Ptr) : List Ptr :=
  chainFrom blocks (maxBlocks request - 1) (blocks block).next

theorem Accounted.counted (hacc : Accounted fits pages state others) (total : ℕ) :
    Accounted fits pages { state with totalAllocated := total } others :=
  hacc.recount rfl rfl rfl rfl

section Succeeds

variable {request : ℕ} {middle after : State} {block : Ptr} {rest : List Ptr}
  (hsucceeds : Succeeds request zone middle after block rest) (hzone : zone < ZONES)

include hsucceeds hzone

theorem Succeeds.after_eq : ∃ total, after =
    { takenChain (markChain middle zone (maxBlocks request) block rest) zone
        (chainBehind middle.blocks request block) with totalAllocated := total } := by
  have hnext := markChain_field BuddyBlock.next (fun _ _ ↦ rfl) middle zone (maxBlocks request)
    block rest
  have hchain := chainFrom_congr hnext (maxBlocks request - 1) (middle.blocks block).next
  obtain ⟨taken, htake, hafter⟩ := hsucceeds.taken
  rw [takeChain_eq hzone, hchain] at htake
  · rw [hafter, ← some.inj htake]
    exact ⟨_, rfl⟩
  · intro member hmem
    rw [hchain] at hmem
    obtain ⟨hne, horder, -⟩ := walkChain_complete hsucceeds.walk member hmem
    exact ⟨hne, (markChain_field BuddyBlock.order (fun _ _ ↦ rfl) ..).trans horder⟩

theorem Succeeds.blocks (other : Ptr) : after.blocks other =
    if other ∈ chainBehind middle.blocks request block then
      { (markChain middle zone (maxBlocks request) block rest).blocks other with isFree := .used }
    else (markChain middle zone (maxBlocks request) block rest).blocks other := by
  obtain ⟨total, hafter⟩ := hsucceeds.after_eq hzone
  rw [hafter, takenChain]

theorem Succeeds.field (field : BuddyBlock → Field)
    (hused : ∀ hdr, field { hdr with isFree := .used } = field hdr)
    (hmark : ∀ hdr length, field { hdr with
      buddyChainLength := length, inTreeFlag := false } = field hdr) (other : Ptr) :
    field (after.blocks other) = field (middle.blocks other) := by
  rw [hsucceeds.blocks hzone]
  split
  · rw [hused, markChain_field field hmark]
  · rw [markChain_field field hmark]

theorem Succeeds.accounted (hacc : Accounted fits pages middle others) :
    ∃ others', Accounted fits pages after others' ∧ block ∈ others' ∧ block ∉ others ∧
      others ⊆ others' ∧ ((chainBehind middle.blocks request block).Nodup →
        (∀ member ∈ chainBehind middle.blocks request block, member ∈ rest) →
          others' ~ chainBehind middle.blocks request block ++ block :: others) := by
  have hunder := hacc.filed zone hzone MAX_ORDER block (by simp [hsucceeds.tree])
  have hunfiled := hacc.unfile hzone (Perm.of_eq hsucceeds.tree)
  have hmarked : Accounted fits pages (markChain middle zone (maxBlocks request) block rest)
      (block :: others) := hunfiled.setBlock mem_cons_self _ rfl rfl rfl rfl rfl
  have hblockLive : block ∈ live middle others := mem_append_right _
    (mem_allFiled.mpr ⟨zone, hzone, MAX_ORDER, le_rfl, by simp [hsucceeds.tree]⟩)
  have hwalked := walkChain_complete hsucceeds.walk
  obtain ⟨others', hafter, hsubset, hperm⟩ := hmarked.takenChain hzone
    (chainBehind middle.blocks request block) (by
      intro member hmember
      obtain ⟨-, horder, hsame⟩ := hwalked member hmember
      have hmem := chainFrom_live hacc hblockLive
        (fun other hother ↦ ⟨(hwalked other hother).1, (hwalked other hother).2.1⟩) member hmember
      exact ⟨mem_live_setEntries hzone le_rfl (Perm.of_eq hsucceeds.tree) hmem,
        (markChain_field BuddyBlock.order (fun _ _ ↦ rfl) ..).trans horder,
        (markChain_field BuddyBlock.zone (fun _ _ ↦ rfl) ..).trans (hsame.trans hunder.zone)⟩)
  have hcounted : Accounted fits pages after others' := by
    obtain ⟨total, hequal⟩ := hsucceeds.after_eq hzone
    rw [hequal]
    exact hafter.counted total
  refine ⟨others', hcounted, hsubset mem_cons_self,
    hunfiled.notMem_others, fun other hother ↦ hsubset (mem_cons_of_mem _ hother),
    fun hnodup hfiled ↦ hperm hnodup fun member hmember ↦ ?_⟩
  simpa [markChain, setBlock, setEntries] using hfiled member hmember

end Succeeds

/-- **The attempts.** An unsuccessful one puts the block back at the end of the tree. The rule is
for any condition on the state that survives this. -/
theorem largeAttempt_outcome {request : ℕ} {holds : State → Prop} (hzone : zone < ZONES)
    (hlarge : 2 ^ MAX_ORDER < request)
    (hfiled : ∀ {state block}, holds state → block ∈ state.buddyFreeListZone zone MAX_ORDER →
      block ≠ NULL ∧ (state.blocks block).order = MAX_ORDER)
    (hrotate : ∀ {state first rest}, holds state →
      state.buddyFreeListZone zone MAX_ORDER = first :: rest →
      walkChain state.blocks (maxBlocks request - 1) first ≠ some (maxBlocks request - 1) →
        holds (state.setEntries zone MAX_ORDER (rest ++ [first]))) :
    ∀ (attempts : ℕ) {state after : State} {block : Ptr}, holds state →
      largeAttempt request zone attempts state = some (after, block) →
      ∃ middle rest, holds middle ∧ Succeeds request zone middle after block rest
  | 0, state, after, block, _, hattempt => by cases hattempt
  | attempts + 1, state, after, block, hholds, hattempt => by
      cases htree : state.buddyFreeListZone zone MAX_ORDER with
      | nil =>
        have hsame : state.setEntries zone MAX_ORDER [] = state := by
          rw [← htree]
          exact setEntries_self ..
        have hlookup : lookupTree state zone MAX_ORDER = some (state, NULL) := by
          rw [lookupTree_eq hzone, htree, tail_nil, hsame]
          rfl
        simp only [largeAttempt, hlookup, bind_eq_bind, bind_some, if_true]
          at hattempt
        exact largeAttempt_outcome hzone hlarge hfiled hrotate attempts hholds hattempt
      | cons first rest =>
        obtain ⟨hne, horder⟩ := hfiled hholds
          (show first ∈ state.buddyFreeListZone zone MAX_ORDER by simp [htree])
        rw [largeAttempt_cons hzone htree hne horder] at hattempt
        obtain ⟨following, hwalk, hattempt⟩ := bind_eq_some_iff.mp hattempt
        have hle := walkChain_le hwalk
        split at hattempt
        · rename_i hshort
          refine largeAttempt_outcome hzone hlarge hfiled hrotate attempts
            (hrotate hholds htree fun hlong ↦ ?_) hattempt
          have heq := some.inj (hwalk.symm.trans hlong)
          omega
        · obtain rfl : following = maxBlocks request - 1 := by omega
          obtain ⟨taken, htake, hres⟩ := bind_eq_some_iff.mp hattempt
          cases hres
          exact ⟨state, rest, hholds, htree, hwalk, taken, htake, rfl⟩

theorem Accounted.rotate (hzone : zone < ZONES) (hacc : Accounted fits pages state others)
    (htree : state.buddyFreeListZone zone key = first :: rest) :
    Accounted fits pages (state.setEntries zone key (rest ++ [first])) others := by
  have hunder := hacc.filed zone hzone key first (by simp [htree])
  have hrotated := (hacc.unfile hzone (Perm.of_eq htree)).file hzone hunder
  have hstate : (state.setEntries zone key rest).setEntries zone key
      ((state.setEntries zone key rest).buddyFreeListZone zone key ++ [first]) =
        state.setEntries zone key (rest ++ [first]) := by
    simp [setEntries]
  rwa [hstate] at hrotated

theorem largeAttempt_spec (hzone : zone < ZONES) (hlarge : 2 ^ MAX_ORDER < request)
    (attempts : ℕ) {block : Ptr} (hacc : Accounted fits pages state others)
    (hfits : LargeFits room state request zone)
    (hattempt : largeAttempt request zone attempts state = some (after, block)) :
    ∃ chain, ChainTaken fits room pages state after others chain block (maxBlocks request) := by
  obtain ⟨middle, rest, ⟨hmiddle, hfits', hblocks, htable, hlists⟩, hsucceeds⟩ :=
    @largeAttempt_outcome zone request (fun middle ↦ Accounted fits pages middle others ∧
      LargeFits room middle request zone ∧ middle.blocks = state.blocks ∧
      middle.usedBuddyHashTable = state.usedBuddyHashTable ∧ middle.lists = state.lists) hzone hlarge
      (fun {middle block} hholds hblock ↦ ⟨hholds.1.filed_ne_null hzone hblock,
        (hholds.1.filed zone hzone MAX_ORDER block hblock).order⟩)
      (by
        intro middle first rest hholds htree _
        obtain ⟨hmiddle, ⟨hwhole, hchains⟩, hsame⟩ := hholds
        refine ⟨hmiddle.rotate hzone htree, ⟨hwhole, fun member hmember hwalk ↦ ?_⟩, hsame⟩
        have htrees : ∀ member, member ∈ (middle.setEntries zone MAX_ORDER
            (rest ++ [first])).buddyFreeListZone zone MAX_ORDER ↔
              member ∈ middle.buddyFreeListZone zone MAX_ORDER := by
          intro member
          simp [setEntries, htree, or_comm]
        obtain ⟨hfiled, hrest⟩ := hchains member ((htrees member).mp hmember) hwalk
        exact ⟨fun other hother ↦ (htrees other).mpr (hfiled other hother), hrest⟩)
      attempts state after block ⟨hacc, hfits, rfl, rfl, rfl⟩ hattempt
  have hpos : maxBlocks request - 1 + 1 = maxBlocks request := by
    rw [maxBlocks_eq]
    exact Nat.sub_add_cancel ((Nat.one_le_div_iff (by decide)).mpr hlarge.le)
  let tail := chainBehind middle.blocks request block
  obtain ⟨hfiled, hstart, hroom⟩ := hfits'.2 block (by simp [hsucceeds.tree]) hsucceeds.walk
  have hchain : chainFrom middle.blocks (maxBlocks request) block = block :: tail := by
    rw [← hpos]
    rfl
  have hlen : (block :: tail).length = maxBlocks request := hchain ▸ length_chainFrom ..
  rw [hchain] at hfiled hstart
  -- The blocks start at different addresses, so the chain has no cycle.
  have hnodup : (block :: tail).Nodup := by
    apply Nodup.of_map fun member ↦ (middle.blocks member).startAddress
    rw [hstart]
    refine nodup_range.map fun idx idx' heq ↦ ?_
    exact Nat.eq_of_mul_eq_mul_right (by decide) (Nat.add_left_cancel heq)
  obtain ⟨hnotMem, hnodupTail⟩ := nodup_cons.mp hnodup
  obtain ⟨others', hafter, -, -, -, hperm⟩ := hsucceeds.accounted hzone hmiddle
  have hothers : others' ~ (block :: tail) ++ others :=
    (hperm hnodupTail fun member hmember ↦ by
      have hmem := hfiled member (mem_cons_of_mem _ hmember)
      rw [hsucceeds.tree] at hmem
      exact (mem_cons.mp hmem).resolve_left (ne_of_mem_of_not_mem hmember hnotMem)).trans
        perm_middle
  have hstarts := hsucceeds.field hzone BuddyBlock.startAddress (fun _ ↦ rfl) fun _ _ ↦ rfl
  have horders := hsucceeds.field hzone BuddyBlock.order (fun _ ↦ rfl) fun _ _ ↦ rfl
  have htaken := hafter.perm hothers.symm
  refine ⟨block :: tail, htaken, mem_cons_self, fun member hmember hne ↦ ?_, ?_, ?_,
    fun other hother ↦ ?_, ?_, ?_⟩
  · rw [hsucceeds.blocks hzone, if_pos ((mem_cons.mp hmember).resolve_left hne)]
  · have hcontiguous := chainPages_contiguous 0 (fun member hmember ↦
        (hmiddle.filed zone hzone MAX_ORDER member (hfiled member hmember)).order)
      (by rw [hlen, ← range_eq_range']; exact hstart)
    rw [hlen, Nat.zero_mul, Nat.add_zero] at hcontiguous
    rw [hstarts, ← hcontiguous]
    exact flatMap_congr fun member _ ↦ by rw [blockPages, hstarts, horders, blockPages]
  · rw [hstarts]
    exact hroom
  · have hnot : other ∉ block :: tail := fun hmem ↦ (nodup_append.mp (nodup_append.mp
      htaken.nodup.of_append_left).1).2.2 other hmem other hother rfl
    rw [hsucceeds.blocks hzone, if_neg fun h ↦ hnot (mem_cons_of_mem _ h),
      markChain_other fun h ↦ hnot (mem_cons.mpr (.inl h)), hblocks]
  · obtain ⟨total, hequal⟩ := hsucceeds.after_eq hzone
    rw [hequal]
    simpa [takenChain, markChain, setBlock, setEntries] using htable
  · obtain ⟨total, hequal⟩ := hsucceeds.after_eq hzone
    rw [hequal]
    simpa [takenChain, markChain, setBlock, setEntries] using hlists

end Taking

theorem Books.allocLarge {room : ℕ → ℕ → Prop} {pages : List (ℕ × ℕ)} {pool : List Ptr}
    {machine : Machine} {small : List (Outstanding × Ptr)} {large : List (Outstanding × List Ptr)}
    {lost : List Ptr} (hbooks : Books room pages pool machine small large lost)
    {zone addr : ℕ} {alloc : Allocation} (hzone : zone < ZONES)
    (hlarge : 2 ^ MAX_ORDER < request) (hfits : LargeFits room machine.state request zone)
    (halloc : physAlloc machine.state request zone alloc = some (after, addr)) :
    ∃ chain, Books room pages pool ⟨after, ⟨addr, request, zone⟩ :: machine.outstanding⟩ small
      ((⟨addr, request, zone⟩, chain) :: large) lost := by
  simp only [physAlloc, buddyAlloc, if_pos hlarge, buddyAllocLargeRange] at halloc
  obtain ⟨⟨taken, block⟩, hattempt, halloc⟩ := bind_eq_some_iff.mp halloc
  obtain ⟨chain, htaken⟩ := largeAttempt_spec hzone hlarge _ hbooks.accounted hfits hattempt
  have hpages : maxBlocks request * 2 ^ MAX_ORDER = request := by
    rw [maxBlocks_eq]
    exact Nat.div_mul_cancel (Nat.dvd_of_mod_eq_zero hfits.1)
  have hmem : block ∈ chain ++ (small.map snd ++ (large.flatMap snd ++ lost)) :=
    mem_append_left _ htaken.mem
  have hsound := htaken.accounted.sound block (mem_append_left _ hmem)
  have hdisj : ∀ other ∈ small.map snd ++ (large.flatMap snd ++ lost),
      other ≠ block := by
    intro other hother heq
    exact (nodup_append.mp (nodup_append.mp (nodup_append.mp
      htaken.accounted.nodup).1).1).2.2 block htaken.mem other hother heq.symm
  obtain ⟨-, halloc⟩ := ite_none_left_eq_some.mp halloc
  cases halloc
  have hmarked := htaken.accounted.setBlock hmem
    { taken.blocks block with isFree := .used } rfl rfl rfl rfl rfl
  have hsame : ∀ other ∈ small.map snd ++ (large.flatMap snd ++ lost),
      Function.update taken.blocks block { taken.blocks block with isFree := .used } other =
        machine.state.blocks other := by
    intro other hother
    rw [Function.update_of_ne (hdisj other hother)]
    exact htaken.kept other hother
  refine ⟨chain, (hbooks.outstanding.cons _).trans perm_middle.symm, ?_, ?_, ?_, ?_⟩
  · refine hmarked.move _ _ rfl rfl rfl (Perm.append_right _ ?_) hmarked.filed
    rw [flatMap_cons, append_assoc]
    exact perm_append_comm_assoc ..
  · refine hbooks.tabled.congr htaken.lists htaken.table fun other hother ↦ ?_
    exact congrArg BuddyBlock.startAddress (hsame other (mem_append_left _ hother))
  · intro holding hhold
    have hkept := hsame holding.2 (mem_append_left _ (mem_map_of_mem hhold))
    simp only [setBlock, hkept]
    exact hbooks.small holding hhold
  · intro holding hhold
    rcases mem_cons.mp hhold with rfl | hold
    · refine ⟨Nat.zero_lt_of_lt hlarge, hsound.aligned, ?_, ?_, ?_⟩
      · exact hpages ▸ htaken.room
      · -- Only the status of the first block has changed.
        simp only
        rw [← hpages, ← htaken.pages]
        apply flatMap_congr
        intro member _
        by_cases h : member = block
        · subst h
          simp [setBlock, blockPages]
        · simp [setBlock, h]
      · intro member hmember
        by_cases h : member = block
        · subst h
          simp [setBlock]
        · simpa [setBlock, h] using htaken.used member hmember h
    · refine (hbooks.large holding hold).congr fun member hmember ↦ hsame member ?_
      exact mem_append_right _ (mem_append_left _ (mem_flatMap.mpr ⟨holding, hold, hmember⟩))

end DionysOS.Memory.Pmm
