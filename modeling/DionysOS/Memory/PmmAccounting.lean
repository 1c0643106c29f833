import DionysOS.Memory.Pmm
import Mathlib.Tactic.Ring

/-!
# Where the pages are

Every block descriptor is filed in a free tree, unused, or one of the `others`: handed out, or
dropped by the code. `Accounted` says that the descriptors are partitioned this way, that each
block in a tree is filed under its own zone and order, and that the pages of all blocks together
are a fixed collection, each page counted once and with its zone.

The steps of the allocator move a block between the trees and the others, rewrite a header without
moving pages, split a block with a new descriptor, or merge a block with its successor. Each of
these is one lemma here.
-/

namespace DionysOS.Memory.Pmm

open DataStructures List Function State BinaryTree

theorem flatMap_update_perm {Key Item : Type*} [DecidableEq Key] (entries : Key → List Item)
    {keys : List Key} (hnodup : keys.Nodup) {key : Key} (hkey : key ∈ keys)
    {extra rest : List Item} (hperm : entries key ~ extra ++ rest) :
    keys.flatMap entries ~ extra ++ keys.flatMap (update entries key rest) := by
  induction keys with
  | nil => cases hkey
  | cons first keys ih =>
    obtain ⟨hfirst, hkeys⟩ := nodup_cons.mp hnodup
    rw [flatMap_cons, flatMap_cons]
    by_cases heq : first = key
    · subst heq
      have hsame : keys.flatMap (update entries first rest) = keys.flatMap entries := by
        apply flatMap_congr
        intro other hother
        have hne : other ≠ first := fun h ↦ hfirst (h ▸ hother)
        exact update_of_ne hne ..
      rw [hsame, update_self, ← append_assoc]
      exact hperm.append_right _
    · have hmem : key ∈ keys := (mem_cons.mp hkey).resolve_left (Ne.symm heq)
      rw [update_of_ne heq]
      calc entries first ++ keys.flatMap entries
          ~ entries first ++ (extra ++ keys.flatMap (update entries key rest)) :=
            (ih hkeys hmem).append_left _
        _ ~ extra ++ (entries first ++ keys.flatMap (update entries key rest)) := by
            simp only [← append_assoc]
            exact perm_append_comm.append_right _

def State.setEntries (state : State) (zone key : ℕ) (entries : List Ptr) : State :=
  { state with
    buddyFreeListZone := Function.update state.buddyFreeListZone zone
      (Function.update (state.buddyFreeListZone zone) key entries) }

def allFiled (state : State) : List Ptr := (range ZONES).flatMap (filedBlocks state)

section Trees

variable {state : State} {zone key : ℕ} {block : Ptr}

theorem lookupTree_eq (hzone : zone < ZONES) (key : ℕ) : lookupTree state zone key =
    some (state.setEntries zone key (state.buddyFreeListZone zone key).tail,
      (state.buddyFreeListZone zone key).headD NULL) := by
  simp [lookupTree, onTree, hzone, multimapStep, setEntries]

theorem insertTreeNode_eq (hzone : zone < ZONES) (block : Ptr) (key : ℕ) :
    insertTreeNode state zone block key =
      some (state.setEntries zone key (state.buddyFreeListZone zone key ++ [block])) := by
  simp [insertTreeNode, onTree, hzone, multimapStep, setEntries]

theorem removeTreeNode_eq (hzone : zone < ZONES) (key : ℕ) (block : Ptr) :
    removeTreeNode state zone key block =
      some (state.setEntries zone key ((state.buddyFreeListZone zone key).erase block)) := by
  simp [removeTreeNode, onTree, hzone, multimapStep, setEntries]

@[simp]
theorem setEntries_self (state : State) (zone key : ℕ) :
    state.setEntries zone key (state.buddyFreeListZone zone key) = state := by
  simp [setEntries]

@[simp]
theorem setEntries_setEntries (state : State) (zone key : ℕ) (entries entries' : List Ptr) :
    (state.setEntries zone key entries).setEntries zone key entries' =
      state.setEntries zone key entries' := by
  simp [setEntries]

@[simp]
theorem setEntries_entries (state : State) (zone key : ℕ) (entries : List Ptr) :
    (state.setEntries zone key entries).buddyFreeListZone zone key = entries := by
  simp [setEntries]

theorem mem_allFiled : block ∈ allFiled state ↔
    ∃ zone < ZONES, ∃ key ≤ MAX_ORDER, block ∈ state.buddyFreeListZone zone key := by
  simp [allFiled, filedBlocks, Nat.lt_succ_iff]

theorem allFiled_congr {after : State} (htrees : after.buddyFreeListZone = state.buddyFreeListZone) :
    allFiled after = allFiled state := by
  have hzones : filedBlocks after = filedBlocks state := by
    funext zone
    rw [filedBlocks, htrees, filedBlocks]
  rw [allFiled, hzones, allFiled]

theorem allFiled_eq (state : State) :
    allFiled state = filedBlocks state 0 ++ filedBlocks state 1 := by
  simp [allFiled, ZONES, range_succ]

section

variable (hkey : key ≤ MAX_ORDER)
include hkey

theorem filedBlocks_setEntries {extra rest : List Ptr}
    (hperm : state.buddyFreeListZone zone key ~ extra ++ rest) :
    filedBlocks state zone ~ extra ++ filedBlocks (state.setEntries zone key rest) zone := by
  have hentries : filedBlocks (state.setEntries zone key rest) zone =
      (range (MAX_ORDER + 1)).flatMap (update (state.buddyFreeListZone zone) key rest) := by
    simp [filedBlocks, setEntries]
  rw [hentries]
  exact flatMap_update_perm _ nodup_range (mem_range.mpr (Nat.lt_succ_of_le hkey)) hperm

theorem filedBlocks_append (state : State) (zone : ℕ) (block : Ptr) :
    filedBlocks (state.setEntries zone key (state.buddyFreeListZone zone key ++ [block])) zone ~
      block :: filedBlocks state zone := by
  have hall := @filedBlocks_setEntries
    (state.setEntries zone key (state.buddyFreeListZone zone key ++ [block])) zone key hkey [block]
    (state.buddyFreeListZone zone key) (by simp)
  rwa [setEntries_setEntries, setEntries_self] at hall

theorem allFiled_setEntries (hzone : zone < ZONES) {extra rest : List Ptr}
    (hperm : state.buddyFreeListZone zone key ~ extra ++ rest) :
    allFiled state ~ extra ++ allFiled (state.setEntries zone key rest) := by
  have hzones : filedBlocks (state.setEntries zone key rest) =
      update (filedBlocks state) zone (filedBlocks (state.setEntries zone key rest) zone) := by
    funext other
    by_cases hother : other = zone
    · rw [hother, update_self]
    · simp [filedBlocks, setEntries, hother]
  unfold allFiled
  rw [hzones]
  exact flatMap_update_perm _ nodup_range (mem_range.mpr hzone) (filedBlocks_setEntries hkey hperm)

theorem allFiled_append (hzone : zone < ZONES) (state : State) (block : Ptr) :
    allFiled (state.setEntries zone key (state.buddyFreeListZone zone key ++ [block])) ~
      [block] ++ allFiled state := by
  have hall := @allFiled_setEntries
    (state.setEntries zone key (state.buddyFreeListZone zone key ++ [block])) zone key hkey hzone
    [block] (state.buddyFreeListZone zone key) (by simp)
  rwa [setEntries_setEntries, setEntries_self] at hall

end

end Trees

/-- The descriptor is an element of `buddy_block_static_pool`. -/
def IsStatic (block : Ptr) : Prop := 0 < block ∧ block ≤ STATIC_POOL_SIZE

instance (block : Ptr) : Decidable (IsStatic block) := instDecidableAnd

/-- The pages of a block, each with the zone of the block. -/
def zonedPages (header : BuddyBlock) : List (ℕ × ℕ) :=
  (range' (header.startAddress / PAGE_SIZE) (2 ^ header.order)).map fun page ↦
    (header.zone, page)

/-- The blocks that stand for pages: the filed ones and the `others`. -/
def live (state : State) (others : List Ptr) : List Ptr := others ++ allFiled state

/-- A block found in the tree of `zone` under `key` belongs there. -/
structure FiledUnder (zone key : ℕ) (header : BuddyBlock) : Prop where
  zone : header.zone = zone
  order : header.order = key
  le : key ≤ MAX_ORDER
  isFree : header.isFree = .free
  inTree : key < MAX_ORDER → header.inTreeFlag = true

/-- What holds of every live block. `fits` is a condition on the start and order of blocks that
halves of a block inherit. -/
structure Sound (fits : ℕ → ℕ → Prop) (kallocLive : List Ptr) (block : Ptr)
    (header : BuddyBlock) : Prop where
  order : header.order ≤ MAX_ORDER
  zone : header.zone < ZONES
  aligned : PAGE_SIZE ∣ header.startAddress
  fits : fits header.startAddress header.order
  owned : if header.staticPoolFlag then IsStatic block
    else block ∈ kallocLive ∧ ¬ IsStatic block

theorem Sound.owned_mono {fits : ℕ → ℕ → Prop} {live live' : List Ptr} {block : Ptr}
    {hdr : BuddyBlock} (hsound : Sound fits live block hdr)
    (hlive : block ∈ live → block ∈ live') :
    if hdr.staticPoolFlag then IsStatic block else block ∈ live' ∧ ¬ IsStatic block := by
  have howned := hsound.owned
  split
  · rename_i h
    rwa [if_pos h] at howned
  · rename_i h
    rw [if_neg h] at howned
    exact ⟨hlive howned.1, howned.2⟩

/-- Every descriptor has its place, and the pages of the live blocks are `pages`. -/
structure Accounted (fits : ℕ → ℕ → Prop) (pages : List (ℕ × ℕ)) (state : State)
    (others : List Ptr) : Prop where
  filed : ∀ zone < ZONES, ∀ key, ∀ block ∈ state.buddyFreeListZone zone key,
    FiledUnder zone key (state.blocks block)
  sound : ∀ block ∈ live state others,
    Sound fits state.kallocLive block (state.blocks block)
  unused : ∀ block ∈ state.unusedBuddyBlocksList, (state.blocks block).order = UNUSED_BYTE ∧
    (state.blocks block).staticPoolFlag = true ∧ IsStatic block
  nodup : (live state others ++ state.unusedBuddyBlocksList).Nodup
  nonnull : NULL ∉ live state others ++ state.unusedBuddyBlocksList
  static : ∀ block, IsStatic block → block ∈ live state others ++ state.unusedBuddyBlocksList
  /-- A successor is a block of the static pool or a live one ... -/
  next : ∀ block ∈ live state others, (state.blocks block).next = NULL ∨
    IsStatic (state.blocks block).next ∨ (state.blocks block).next ∈ live state others
  /-- ... and outside the static pool it has one predecessor. -/
  unique : ∀ block ∈ live state others, ∀ other ∈ live state others,
    (state.blocks block).next = (state.blocks other).next → (state.blocks block).next ≠ NULL →
    ¬ IsStatic (state.blocks block).next → block = other
  pages : (live state others).flatMap (fun block ↦ zonedPages (state.blocks block)) ~ pages

section Moves

variable {fits : ℕ → ℕ → Prop} {pages : List (ℕ × ℕ)} {state : State} {others : List Ptr}
  {block : Ptr} {zone key : ℕ}

section

variable (hacc : Accounted fits pages state others)
include hacc

theorem Accounted.move (after : State) (others' : List Ptr) (hblocks : after.blocks = state.blocks)
    (hunused : after.unusedBuddyBlocksList = state.unusedBuddyBlocksList)
    (hkalloc : after.kallocLive = state.kallocLive) (hperm : live after others' ~ live state others)
    (hfiled : ∀ zone < ZONES, ∀ key, ∀ block ∈ after.buddyFreeListZone zone key,
      FiledUnder zone key (after.blocks block)) :
    Accounted fits pages after others' := by
  have hall : live after others' ++ after.unusedBuddyBlocksList ~
      live state others ++ state.unusedBuddyBlocksList := by
    rw [hunused]
    exact hperm.append_right _
  refine ⟨hfiled, ?_, ?_, hall.nodup_iff.mpr hacc.nodup,
    fun h ↦ hacc.nonnull (hall.mem_iff.mp h),
    fun block hblock ↦ hall.mem_iff.mpr (hacc.static block hblock), ?_, ?_, ?_⟩
  · intro block hblock
    rw [hblocks, hkalloc]
    exact hacc.sound block (hperm.mem_iff.mp hblock)
  · rw [hunused, hblocks]
    exact hacc.unused
  · intro block hblock
    rw [hblocks, hperm.mem_iff]
    exact hacc.next block (hperm.mem_iff.mp hblock)
  · intro block hblock other hother
    rw [hblocks]
    exact hacc.unique block (hperm.mem_iff.mp hblock) other (hperm.mem_iff.mp hother)
  · rw [hblocks]
    exact (hperm.flatMap_right _).trans hacc.pages

theorem Accounted.recount {after : State} (hblocks : after.blocks = state.blocks)
    (htrees : after.buddyFreeListZone = state.buddyFreeListZone)
    (hunused : after.unusedBuddyBlocksList = state.unusedBuddyBlocksList)
    (hkalloc : after.kallocLive = state.kallocLive) : Accounted fits pages after others := by
  apply hacc.move after others hblocks hunused hkalloc
  · rw [live, allFiled_congr htrees, live]
  · rw [htrees, hblocks]
    exact hacc.filed

theorem Accounted.filed_setEntries
    {entries : List Ptr} (hentries : ∀ block ∈ entries, FiledUnder zone key (state.blocks block)) :
    ∀ other < ZONES, ∀ key', ∀ block ∈ (state.setEntries zone key entries).buddyFreeListZone
      other key', FiledUnder other key' (state.blocks block) := by
  intro other hother key' block hblock
  by_cases hzone : other = zone
  · subst hzone
    by_cases hkey : key' = key
    · subst hkey
      exact hentries block (by simpa [setEntries] using hblock)
    · exact hacc.filed other hother key' block
        (by simpa [setEntries, hkey] using hblock)
  · exact hacc.filed other hother key' block
      (by simpa [setEntries, hzone] using hblock)

theorem Accounted.unfile (hzone : zone < ZONES)
    {rest : List Ptr} (hperm : state.buddyFreeListZone zone key ~ block :: rest) :
    Accounted fits pages (state.setEntries zone key rest) (block :: others) := by
  have hentries : ∀ member ∈ block :: rest, FiledUnder zone key (state.blocks member) :=
    fun member hmem ↦ hacc.filed zone hzone key member (hperm.mem_iff.mpr hmem)
  have hfiled : allFiled state ~ [block] ++ allFiled (state.setEntries zone key rest) :=
    allFiled_setEntries (hentries block mem_cons_self).le hzone hperm
  refine hacc.move _ _ rfl rfl rfl ?_ (hacc.filed_setEntries fun member hmem ↦
    hentries member (mem_cons_of_mem _ hmem))
  calc live (state.setEntries zone key rest) (block :: others)
      ~ others ++ ([block] ++ allFiled (state.setEntries zone key rest)) := perm_middle.symm
    _ ~ live state others := hfiled.symm.append_left others

end

theorem Accounted.file (hacc : Accounted fits pages state (block :: others))
    (hzone : zone < ZONES) (hfiled : FiledUnder zone key (state.blocks block)) :
    Accounted fits pages
      (state.setEntries zone key (state.buddyFreeListZone zone key ++ [block])) others := by
  have hall := allFiled_append hfiled.le hzone state block
  refine hacc.move _ _ rfl rfl rfl ?_ (hacc.filed_setEntries fun member hmem ↦ ?_)
  · calc live (state.setEntries zone key (state.buddyFreeListZone zone key ++ [block])) others
        ~ others ++ ([block] ++ allFiled state) := hall.append_left others
      _ ~ live state (block :: others) := perm_middle
  · rcases mem_append.mp hmem with hmem | hmem
    · exact hacc.filed zone hzone key member hmem
    · exact mem_singleton.mp hmem ▸ hfiled

section

variable (hacc : Accounted fits pages state others)
include hacc

theorem Accounted.perm {others' : List Ptr}
    (hperm : others' ~ others) : Accounted fits pages state others' :=
  hacc.move _ _ rfl rfl rfl (hperm.append_right _) hacc.filed

theorem Accounted.mono {fits' : ℕ → ℕ → Prop}
    (hfits : ∀ start order, fits start order → fits' start order) :
    Accounted fits' pages state others :=
  { hacc with
    sound := fun block hblock ↦
      { hacc.sound block hblock with
        fits := hfits _ _ (hacc.sound block hblock).fits } }

theorem Accounted.notMem_filed (hblock : block ∈ others) (hzone : zone < ZONES) :
    block ∉ state.buddyFreeListZone zone key := by
  intro hmem
  have hfiled : block ∈ allFiled state :=
    mem_allFiled.mpr ⟨zone, hzone, key, (hacc.filed zone hzone key block hmem).le, hmem⟩
  exact (nodup_append.mp hacc.nodup.of_append_left).2.2 block hblock block
    hfiled rfl

theorem Accounted.setBlock (hblock : block ∈ others) (hdr : BuddyBlock)
    (hzone : hdr.zone = (state.blocks block).zone)
    (horder : hdr.order = (state.blocks block).order)
    (hstart : hdr.startAddress = (state.blocks block).startAddress)
    (hnext : hdr.next = (state.blocks block).next)
    (hstatic : hdr.staticPoolFlag = (state.blocks block).staticPoolFlag) :
    Accounted fits pages (state.setBlock block hdr) others := by
  have hmem : block ∈ live state others := mem_append_left _ hblock
  have hnotUnused : ∀ member ∈ state.unusedBuddyBlocksList, member ≠ block :=
    fun member hmember h ↦ (nodup_append.mp hacc.nodup).2.2 block hmem member hmember
      h.symm
  -- Read through the update, every accounted field is what it was.
  have hfield : ∀ {Value : Type} (field : BuddyBlock → Value),
      field hdr = field (state.blocks block) → ∀ member,
      field ((state.setBlock block hdr).blocks member) = field (state.blocks member) := by
    intro Value field hfield member
    by_cases h : member = block
    · subst h
      simpa [State.setBlock] using hfield
    · simp [State.setBlock, h]
  have hpages : zonedPages hdr = zonedPages (state.blocks block) := by
    simp only [zonedPages, hzone, horder, hstart]
  refine ⟨?_, ?_, ?_, hacc.nodup, hacc.nonnull, hacc.static, ?_, ?_, ?_⟩
  · intro zone hlt key member hmember
    have hne : member ≠ block := fun h ↦ hacc.notMem_filed hblock hlt (h ▸ hmember)
    simpa [State.setBlock, hne] using hacc.filed zone hlt key member hmember
  · intro member hmember
    have hsound := hacc.sound member hmember
    exact ⟨(hfield (·.order) horder member).trans_le hsound.order,
      (hfield (·.zone) hzone member).trans_lt hsound.zone,
      (hfield (·.startAddress) hstart member).symm ▸ hsound.aligned,
      (hfield (·.startAddress) hstart member).symm ▸ (hfield (·.order) horder member).symm ▸
        hsound.fits, by rw [hfield (·.staticPoolFlag) hstatic member]; exact hsound.owned⟩
  · intro member hmember
    simpa [State.setBlock, hnotUnused member hmember] using hacc.unused member hmember
  · intro member hmember
    rw [hfield (·.next) hnext member]
    exact hacc.next member hmember
  · intro member hmember other hother
    rw [hfield (·.next) hnext member, hfield (·.next) hnext other]
    exact hacc.unique member hmember other hother
  · have hsame : (fun member ↦ zonedPages ((state.setBlock block hdr).blocks member)) =
        fun member ↦ zonedPages (state.blocks member) := funext (hfield zonedPages hpages)
    rw [hsame]
    exact hacc.pages

end

end Moves

end DionysOS.Memory.Pmm
