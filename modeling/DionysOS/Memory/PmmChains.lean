import DionysOS.Memory.PmmOrders
import DionysOS.Memory.PmmSafety

/-!
# What a large allocation takes

`buddy_alloc_large_range` goes through the filed blocks of the maximal order and settles on the first
one that has enough successors of that order in its zone. `selectedBlock` is this block as a
function of the state before the call, and `physAlloc_range_iff` says when the range that starts
there is what the caller asked for: the request has to be a whole number of blocks, and the chain of
the selected block has to be filed and contiguous. The code checks neither.
-/

namespace DionysOS.Memory.Pmm

open DataStructures Foundation.PartialMachine List Option State
open DataStructures.SinglyLinkedList (NodeStore)

variable {state after : State} {zone request req : ℕ} {block : Ptr}

/-- The first filed block of the maximal order whose chain is long enough for the code. -/
def selectedBlock (state : State) (request zone : ℕ) : Option Ptr :=
  (state.buddyFreeListZone zone MAX_ORDER).find? fun block ↦
    walkChain state.blocks (maxBlocks request - 1) block == some (maxBlocks request - 1)

theorem buddyAllocLargeRange_selects (hzone : zone < ZONES) (hlarge : 2 ^ MAX_ORDER < req)
    (hfiled : ∀ block ∈ state.buddyFreeListZone zone MAX_ORDER,
      block ≠ NULL ∧ (state.blocks block).order = MAX_ORDER)
    (hcall : buddyAllocLargeRange state req zone = some (after, block)) :
    ∃ front back, state.buddyFreeListZone zone MAX_ORDER = front ++ block :: back ∧
      selectedBlock state req zone = some block ∧
      Succeeds req zone (state.setEntries zone MAX_ORDER (block :: (back ++ front))) after block
        (back ++ front) := by
  -- The blocks in `passed` have been tried and put back.
  let holds : State → Prop := fun mid ↦ ∃ passed rest,
    state.buddyFreeListZone zone MAX_ORDER = passed ++ rest ∧
      mid = state.setEntries zone MAX_ORDER (rest ++ passed) ∧
      ∀ other ∈ passed, walkChain state.blocks (maxBlocks req - 1) other ≠
        some (maxBlocks req - 1)
  have hmembers : ∀ {mid member}, holds mid →
      member ∈ mid.buddyFreeListZone zone MAX_ORDER →
        member ≠ NULL ∧ (mid.blocks member).order = MAX_ORDER := by
    rintro mid member ⟨passed, rest, hsplit, rfl, -⟩ hmem
    rw [setEntries_entries] at hmem
    apply hfiled member
    rw [hsplit]
    exact (perm_append_comm.mem_iff).mp hmem
  have hrotate : ∀ {mid first rest}, holds mid →
      mid.buddyFreeListZone zone MAX_ORDER = first :: rest →
      walkChain mid.blocks (maxBlocks req - 1) first ≠ some (maxBlocks req - 1) →
        holds (mid.setEntries zone MAX_ORDER (rest ++ [first])) := by
    rintro mid first others ⟨passed, rest, hsplit, rfl, hpassed⟩ htree hshort
    rw [setEntries_entries] at htree
    rw [setEntries_setEntries]
    cases rest with
    | nil =>
      rw [nil_append] at htree
      refine ⟨[first], others, by rw [hsplit, htree, append_nil]; rfl, rfl, fun other hother ↦ ?_⟩
      rw [mem_singleton.mp hother]
      exact hshort
    | cons next rest =>
      rw [cons_append] at htree
      obtain ⟨rfl, rfl⟩ := cons.inj htree
      refine ⟨passed ++ [next], rest, by rw [hsplit, append_assoc]; rfl,
        by rw [append_assoc], fun other hother ↦ ?_⟩
      rcases mem_append.mp hother with hother | hother
      · exact hpassed other hother
      · rw [mem_singleton.mp hother]
        exact hshort
  have hstart : holds state := ⟨[], _, rfl, by simp, by simp⟩
  obtain ⟨mid, others, ⟨passed, rest, hsplit, rfl, hpassed⟩, hsucceeds⟩ :=
    largeAttempt_outcome hzone hlarge hmembers hrotate 501 hstart hcall
  have htree := hsucceeds.tree
  rw [setEntries_entries] at htree
  cases rest with
  | nil =>
    rw [nil_append] at htree
    exact absurd hsucceeds.walk (hpassed block (by simp [htree]))
  | cons next rest =>
    obtain ⟨rfl, rfl⟩ := cons.inj htree
    refine ⟨passed, rest, hsplit, ?_, hsucceeds⟩
    have hnone : (passed.find? fun other ↦ walkChain state.blocks (maxBlocks req - 1) other ==
        some (maxBlocks req - 1)) = none :=
      find?_eq_none.mpr fun other hother ↦ by simpa using hpassed other hother
    have hwalk : walkChain state.blocks (maxBlocks req - 1) next =
        some (maxBlocks req - 1) := hsucceeds.walk
    rw [selectedBlock, hsplit, find?_append, hnone, none_or, find?_cons]
    simp [hwalk]

/-- The blocks that a large allocation returns and takes. -/
def takenBlocks (state : State) (request : ℕ) (block : Ptr) : List Ptr :=
  chainFrom state.blocks (maxBlocks request) block

/-- The blocks that were taken are free blocks of the maximal order that follow one another and have
enough pages; they have left the trees and are in use, and nothing else has changed. -/
structure ContiguousRange (before after : State) (request zone : ℕ) (block : Ptr) : Prop where
  free : ∀ member ∈ takenBlocks before request block,
    member ∈ before.buddyFreeListZone zone MAX_ORDER ∧
      (before.blocks member).order = MAX_ORDER ∧ (before.blocks member).isFree = .free
  adjacent : ((takenBlocks before request block).map fun member ↦
      (before.blocks member).startAddress) =
    (range (takenBlocks before request block).length).map fun index ↦
      (before.blocks block).startAddress + index * (2 ^ MAX_ORDER * PAGE_SIZE)
  enough : request ≤ (takenBlocks before request block).length * 2 ^ MAX_ORDER
  taken : ∀ member ∈ takenBlocks before request block,
    member ∉ allFiled after ∧ (after.blocks member).isFree = .used
  others : ∀ other ∉ takenBlocks before request block, after.blocks other = before.blocks other ∧
    ∀ zone' < ZONES, ∀ key, other ∈ after.buddyFreeListZone zone' key ↔
      other ∈ before.buddyFreeListZone zone' key

/-- What the call leaves behind, as a function of the state before it. -/
structure RangeTaken (before after : State) (request zone : ℕ) (block : Ptr) (rest : List Ptr) :
    Prop where
  entries : before.buddyFreeListZone zone MAX_ORDER ~ block :: rest
  tree : after.buddyFreeListZone zone MAX_ORDER =
    rest.diff (chainFrom before.blocks (maxBlocks request - 1) (before.blocks block).next)
  trees : ∀ zone' key, (zone', key) ≠ (zone, MAX_ORDER) →
    after.buddyFreeListZone zone' key = before.buddyFreeListZone zone' key
  first : (after.blocks block).isFree = .used
  chain : ∀ member ∈ chainFrom before.blocks (maxBlocks request - 1) (before.blocks block).next,
    (after.blocks member).isFree = .used
  blocks : ∀ other, other ≠ block →
    other ∉ chainFrom before.blocks (maxBlocks request - 1) (before.blocks block).next →
      after.blocks other = before.blocks other

theorem buddyAllocLargeRange_taken (hlarge : 2 ^ MAX_ORDER < req)
    (hfiled : ∀ block ∈ state.buddyFreeListZone zone MAX_ORDER,
      block ≠ NULL ∧ (state.blocks block).order = MAX_ORDER)
    (hcall : buddyAllocLargeRange state req zone = some (after, block)) :
    selectedBlock state req zone = some block ∧
      ∃ rest, RangeTaken state (handOut after block) req zone block rest := by
  have hzone := zone_lt_of_largeAttempt hcall
  obtain ⟨front, back, hsplit, hselected, hsucceeds⟩ :=
    buddyAllocLargeRange_selects hzone hlarge hfiled hcall
  let mid := state.setEntries zone MAX_ORDER (block :: (back ++ front))
  have hafterTrees : (handOut after block).buddyFreeListZone =
      (mid.setEntries zone MAX_ORDER ((back ++ front).diff
        (chainBehind state.blocks req block))).buddyFreeListZone := by
    obtain ⟨total, hequal⟩ := hsucceeds.after_eq hzone
    rw [hequal]
    simp [handOut, takenChain, mid, markChain, setBlock, setEntries]
  refine ⟨hselected, back ++ front, ?_, ?_, ?_, ?_, ?_, ?_⟩
  · rw [hsplit]
    exact perm_append_comm
  · rw [hafterTrees, setEntries_entries, chainBehind]
  · intro zone' key hne
    rw [hafterTrees]
    by_cases hsame : zone' = zone
    · subst hsame
      have hkey : key ≠ MAX_ORDER := fun h ↦ hne (by rw [h])
      simp [mid, setEntries, hkey]
    · simp [mid, setEntries, hsame]
  · rw [handOut_block]
  · intro member hmem
    by_cases h : member = block
    · subst h
      rw [handOut_block]
    · rw [handOut_other h, hsucceeds.blocks hzone,
        if_pos (show member ∈ chainBehind mid.blocks req block from hmem)]
  · intro other hne hnotMem
    rw [handOut_other hne, hsucceeds.blocks hzone,
      if_neg (show other ∉ chainBehind mid.blocks req block from hnotMem),
      markChain_other hne]
    rfl

theorem RangeTaken.contiguous {rest : List Ptr}
    (htaken : RangeTaken state after request zone block rest) (hlarge : 2 ^ MAX_ORDER < request)
    {used : List Ptr} (hfiled : FiledByOrder ⟨state, used⟩) (hzone : zone < ZONES)
    (hwhole : request % 2 ^ MAX_ORDER = 0)
    (hfits : ChainFits (fun _ _ ↦ True) state zone (maxBlocks request) block) :
    ContiguousRange state after request zone block := by
  let tail := chainFrom state.blocks (maxBlocks request - 1) (state.blocks block).next
  have hpos : maxBlocks request - 1 + 1 = maxBlocks request := by
    rw [maxBlocks_eq]
    exact Nat.sub_add_cancel ((Nat.one_le_div_iff (by decide)).mpr hlarge.le)
  have hblocks : takenBlocks state request block = block :: tail := by
    rw [takenBlocks, ← hpos]
    rfl
  have hlen : (takenBlocks state request block).length = maxBlocks request :=
    length_chainFrom ..
  obtain ⟨hchain, hstart, -⟩ := hfits
  have hunder : ∀ member ∈ takenBlocks state request block,
      (state.blocks member).order = MAX_ORDER ∧ (state.blocks member).isFree = .free ∧
        (state.blocks member).zone = zone :=
    fun member hmember ↦ (hfiled.filed zone hzone MAX_ORDER member (hchain member hmember)).2
  have hnodup : (block :: rest).Nodup := by
    apply htaken.entries.nodup_iff.mp
    have honce := (nodup_flatMap.mp hfiled.once).1 zone (mem_range.mpr hzone)
    exact (nodup_flatMap.mp honce).1 MAX_ORDER (mem_range.mpr (Nat.lt_succ_self _))
  obtain ⟨hblock, hrest⟩ := nodup_cons.mp hnodup
  have hafter : ∀ member, member ∈ after.buddyFreeListZone zone MAX_ORDER ↔
      member ∈ rest ∧ member ∉ tail := by
    intro member
    rw [htaken.tree]
    exact hrest.mem_sdiff_iff
  refine ⟨fun member hmember ↦ ⟨hchain member hmember, (hunder member hmember).1,
    (hunder member hmember).2.1⟩, by rw [hlen]; exact hstart, ?_, ?_, ?_⟩
  · rw [hlen, maxBlocks_eq]
    exact (Nat.div_mul_cancel (Nat.dvd_of_mod_eq_zero hwhole)).ge
  · intro member hmember
    constructor
    · intro hmem
      obtain ⟨zone', hzone', key, -, hmem⟩ := mem_allFiled.mp hmem
      by_cases hplace : (zone', key) = (zone, MAX_ORDER)
      · cases hplace
        obtain ⟨hin, hout⟩ := (hafter member).mp hmem
        rw [hblocks] at hmember
        rcases mem_cons.mp hmember with rfl | hmember
        · exact hblock hin
        · exact hout hmember
      · -- Under another key there was no block of this order and zone.
        rw [htaken.trees zone' key hplace] at hmem
        obtain ⟨-, horder, -, hsame⟩ := hfiled.filed zone' hzone' key member hmem
        obtain ⟨horder', -, hsame'⟩ := hunder member hmember
        exact hplace (Prod.ext (hsame.symm.trans hsame') (horder.symm.trans horder'))
    · rw [hblocks] at hmember
      rcases mem_cons.mp hmember with rfl | hmember
      · exact htaken.first
      · exact htaken.chain member hmember
  · intro other hother
    rw [hblocks, mem_cons, not_or] at hother
    refine ⟨htaken.blocks other hother.1 hother.2, fun zone' hzone' key ↦ ?_⟩
    by_cases hplace : (zone', key) = (zone, MAX_ORDER)
    · cases hplace
      rw [hafter, htaken.entries.mem_iff, mem_cons]
      exact ⟨fun h ↦ .inr h.1, fun h ↦ ⟨h.resolve_left hother.1, hother.2⟩⟩
    · rw [htaken.trees zone' key hplace]

theorem filed_of_physInit {pool : List Ptr} {lists : NodeStore} {entries : List MemmapEntry}
    (hinit : physInit pool lists entries = some state) :
    FiledByOrder ⟨state, []⟩ ∧ NULL ∉ allFiled state := by
  obtain ⟨pages, others, hmapped⟩ := @run_mapped _ _ _ _ hinit [] ⟨state, []⟩ [] rfl
  exact ⟨hmapped.filedByOrder, hmapped.null_notMem⟩

end DionysOS.Memory.Pmm
