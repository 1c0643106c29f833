import DionysOS.Memory.PmmMerging

/-!
# The calls that release a block

`Settled` lists what `buddy_coalesce` can do with a block: file it, merge it with its successor and
file the result, or leave it outside the trees. `buddyFree_spec` says which of them a release does,
given that a merge only happens with an adjacent block.
-/

namespace DionysOS.Memory.Pmm

open DataStructures List Option SinglyLinkedList State
open DataStructures.HashTable

variable {fits : ℕ → ℕ → Prop} {pages : List (ℕ × ℕ)} {pool : List Ptr} {state : State}
  {others small rest : List Ptr} {block next : Ptr} {addr : ℕ}

theorem fileFree_spec (hacc : Accounted fits pages state (block :: rest))
    (hfree : (state.blocks block).isFree = .free) :
    ∃ after, fileFree state block = some after ∧ Accounted fits pages after rest ∧
      (∀ other, other ≠ block → after.blocks other = state.blocks other) ∧
      after.usedBuddyHashTable = state.usedBuddyHashTable ∧ after.lists = state.lists ∧
      after.kallocLive = state.kallocLive := by
  have hsound := hacc.sound block mem_cons_self
  have hmarked := hacc.setBlock mem_cons_self
    { state.blocks block with inTreeFlag := true } rfl rfl rfl rfl rfl
  have hfiled : FiledUnder (state.blocks block).zone (state.blocks block).order
      ((state.setBlock block { state.blocks block with inTreeFlag := true }).blocks block) := by
    simp only [setBlock, Function.update_self]
    exact ⟨rfl, rfl, hsound.order, hfree, fun _ ↦ rfl⟩
  refine ⟨_, insertTreeNode_eq hsound.zone _ _, hmarked.file hsound.zone hfiled, ?_, rfl, rfl, rfl⟩
  intro other hother
  simp [setEntries, setBlock, hother]

theorem Accounted.next_mem_live (hacc : Accounted fits pages state others)
    (hblock : block ∈ live state others) (hnull : (state.blocks block).next ≠ NULL)
    (horder : (state.blocks (state.blocks block).next).order ≤ MAX_ORDER) :
    (state.blocks block).next ∈ live state others := by
  rcases hacc.next block hblock with h | h | h
  · exact absurd h hnull
  · rcases mem_append.mp (hacc.static _ h) with hlive | hunused
    · exact hlive
    · have hbyte := (hacc.unused _ hunused).1
      rw [hbyte] at horder
      exact absurd horder (by decide)
  · exact h

/-- Take a block that is marked as filed out of its tree. -/
def unfiled (state : State) (block : Ptr) : State :=
  if (state.blocks block).inTreeFlag then
    state.setEntries (state.blocks block).zone (state.blocks block).order
      ((state.buddyFreeListZone (state.blocks block).zone (state.blocks block).order).erase block)
  else state

@[simp]
theorem blocks_unfiled (state : State) (block : Ptr) :
    (unfiled state block).blocks = state.blocks := by
  unfold unfiled
  split <;> rfl

theorem unfiled_rest (state : State) (block : Ptr) :
    (unfiled state block).usedBuddyHashTable = state.usedBuddyHashTable ∧
      (unfiled state block).lists = state.lists ∧
      (unfiled state block).kallocLive = state.kallocLive := by
  unfold unfiled
  split
  · exact ⟨rfl, rfl, rfl⟩
  · exact ⟨rfl, rfl, rfl⟩

theorem mergeState_rest (state : State) (block next : Ptr) :
    (mergeState state block next).usedBuddyHashTable = state.usedBuddyHashTable ∧
      (mergeState state block next).lists = state.lists ∧
      (mergeState state block next).kallocLive.Sublist state.kallocLive := by
  unfold mergeState releaseDescriptor
  split
  · exact ⟨rfl, rfl, Sublist.refl _⟩
  · exact ⟨rfl, rfl, erase_sublist⟩

theorem buddyBlockFree_eq (hzone : (state.blocks block).zone < ZONES) :
    buddyBlockFree state block = some (releaseDescriptor (unfiled state block) block) := by
  unfold buddyBlockFree releaseDescriptor
  rw [blocks_unfiled]
  unfold unfiled
  by_cases hin : (state.blocks block).inTreeFlag = true
  · simp only [if_pos hin, removeTreeNode_eq hzone, bind_eq_bind, bind_some]
    split <;> rfl
  · simp only [if_neg hin, Option.pure_def, bind_eq_bind, bind_some]
    split <;> rfl

theorem Accounted.unfiled (hacc : Accounted fits pages state (block :: rest))
    (hne : next ≠ block) (hnext : next ∈ live state (block :: rest))
    (horder : (state.blocks next).order < MAX_ORDER) :
    Accounted fits pages (unfiled state next) (next :: block :: rest.erase next) := by
  have hsound := hacc.sound next hnext
  rcases mem_append.mp hnext with hothers | hfiled
  · have hrest : next ∈ rest := (mem_cons.mp hothers).resolve_left hne
    have hsame : Pmm.unfiled state next = state := by
      unfold Pmm.unfiled
      split
      · rw [erase_of_not_mem (hacc.notMem_filed hothers hsound.zone), setEntries_self]
      · rfl
    rw [hsame]
    apply hacc.perm
    exact (Perm.swap ..).trans ((perm_cons_erase hrest).symm.cons block)
  · obtain ⟨zone, hzone, key, -, hmem⟩ := mem_allFiled.mp hfiled
    have hunder := hacc.filed zone hzone key next hmem
    have hin : (state.blocks next).inTreeFlag = true := hunder.inTree (hunder.order ▸ horder)
    have hnotRest : next ∉ rest := fun h ↦
      hacc.notMem_filed (mem_cons_of_mem _ h) hzone hmem
    rw [erase_of_not_mem hnotRest]
    simp only [Pmm.unfiled, hin, if_true, hunder.zone, hunder.order]
    exact hacc.unfile hzone (perm_cons_erase hmem)

theorem buddyBlockFree_merged (hacc : Accounted fits pages state (block :: rest))
    (hne : next ≠ block) (hnext : next ∈ live state (block :: rest)) :
    buddyBlockFree (state.setBlock block (mergedHeader (state.blocks block) (state.blocks next)))
      next = some (mergeState (unfiled state next) block next) := by
  have hhdr : (state.setBlock block
      (mergedHeader (state.blocks block) (state.blocks next))).blocks next = state.blocks next := by
    simp [setBlock, hne]
  rw [buddyBlockFree_eq (by rw [hhdr]; exact (hacc.sound next hnext).zone), mergeState,
    blocks_unfiled]
  congr 2
  unfold unfiled
  rw [hhdr]
  by_cases hin : (state.blocks next).inTreeFlag = true
  · simp only [if_pos hin]
    rfl
  · simp only [if_neg hin]

/-- The block goes back into a tree without a merge. -/
def FilesAlone (state : State) (block : Ptr) : Prop :=
  (state.blocks block).next = NULL ∨ (state.blocks block).order = MAX_ORDER

/-- The code merges the block with its successor. -/
def Merges (state : State) (block : Ptr) : Prop :=
  ¬ FilesAlone state block ∧
    Mergeable (state.blocks block) (state.blocks (state.blocks block).next)

/-- The successor starts where the block ends, and the block made of the two fits. -/
def MergeFits (fits : ℕ → ℕ → Prop) (state : State) (block : Ptr) : Prop :=
  let header := state.blocks block
  (state.blocks header.next).startAddress = header.startAddress + 2 ^ header.order * PAGE_SIZE ∧
    fits header.startAddress (header.order + 1)

instance (state : State) (block : Ptr) : Decidable (FilesAlone state block) :=
  instDecidableOr

instance [DecidableRel fits] (state : State) (block : Ptr) : Decidable (MergeFits fits state block) :=
  instDecidableAnd

instance (state : State) (block : Ptr) : Decidable (Merges state block) :=
  instDecidableAnd

/-- What becomes of a released block; `rest` are the other blocks outside the trees. -/
inductive Settled (fits : ℕ → ℕ → Prop) (pages : List (ℕ × ℕ)) (before after : State)
    (block : Ptr) (rest : List Ptr) : Prop
  | filed (haccounted : Accounted fits pages after rest)
      (hkept : ∀ other ∈ rest, after.blocks other = before.blocks other)
  | merged (hfree : (before.blocks (before.blocks block).next).isFree = .free)
      (haccounted : Accounted fits pages after (rest.erase (before.blocks block).next))
      (hkept : ∀ other ∈ rest, other ≠ (before.blocks block).next →
        after.blocks other = before.blocks other)
  | left (hneither : ¬ FilesAlone before block ∧ ¬ Merges before block)
      (haccounted : Accounted fits pages after (block :: rest))
      (hkept : ∀ other ∈ rest, after.blocks other = before.blocks other)

theorem Settled.kept {before after : State} (hsettled : Settled fits pages before after block rest)
    {other : Ptr} (hother : other ∈ rest) (hused : (before.blocks other).isFree = .used) :
    after.blocks other = before.blocks other := by
  cases hsettled with
  | filed _ hkept => exact hkept other hother
  | merged hfree _ hkept =>
    apply hkept other hother
    rintro rfl
    rw [hfree] at hused
    cases hused
  | left _ _ hkept => exact hkept other hother

section

variable (hacc : Accounted fits pages state (block :: rest))
include hacc

theorem buddyCoalesce_settles {pages' : List (ℕ × ℕ)}
    (hfree : (state.blocks block).isFree = .free) (hkeeps : ¬ Merges state block → pages' = pages)
    (hmerge : Merges state block → (state.blocks block).next ≠ block ∧
      ∀ merged, merged = mergeState (unfiled state (state.blocks block).next) block
        (state.blocks block).next →
          Accounted fits pages' merged (block :: rest.erase (state.blocks block).next)) :
    ∃ after, buddyCoalesce state block = some after ∧
      after.usedBuddyHashTable = state.usedBuddyHashTable ∧ after.lists = state.lists ∧
      after.kallocLive.Sublist state.kallocLive ∧
      Settled fits pages' state after block rest := by
  have hblock : block ∈ live state (block :: rest) := mem_cons_self
  have hnonnull : block ≠ NULL := fun h ↦
    hacc.nonnull (mem_append_left _ (h ▸ hblock))
  have hrestNe : ∀ other ∈ rest, other ≠ block := fun other hother h ↦
    hacc.notMem_others (h ▸ hother)
  by_cases hfiles : FilesAlone state block
  · obtain ⟨after, hfile, hafter, hkept, htable, hlists, hkalloc⟩ := fileFree_spec hacc hfree
    rw [← hkeeps fun h ↦ h.1 hfiles] at hafter
    refine ⟨after, ?_, htable, hlists, hkalloc ▸ Sublist.refl _, .filed hafter
      fun other hother ↦ hkept other (hrestNe other hother)⟩
    rcases hfiles with h | h
    · simp [buddyCoalesce, hnonnull, h, hfile]
    · by_cases hnull : (state.blocks block).next = NULL
      · simp [buddyCoalesce, hnonnull, hnull, hfile]
      · simp [buddyCoalesce, hnonnull, hnull, h, hfile]
  · have hnull : (state.blocks block).next ≠ NULL := fun h ↦ hfiles (.inl h)
    have hmax : (state.blocks block).order ≠ MAX_ORDER := fun h ↦ hfiles (.inr h)
    by_cases hmerges : Merges state block
    · obtain ⟨horder, ⟨-, hnextFree⟩, -⟩ := hmerges.2
      obtain ⟨hne, hmerged⟩ := hmerge hmerges
      have hle := (hacc.sound block hblock).order
      have hnext := hacc.next_mem_live hblock hnull (horder ▸ hle)
      have hfreed := buddyBlockFree_merged hacc hne hnext
      obtain ⟨after, hfile, hafter, hkept, htable, hlists, hkalloc⟩ :=
        fileFree_spec (hmerged _ rfl)
          (by rw [mergeState_block hne.symm, blocks_unfiled]; exact hfree)
      have hother : ∀ other ∈ rest, other ≠ (state.blocks block).next →
          after.blocks other = state.blocks other := by
        intro other hother hotherNext
        rw [hkept other (hrestNe other hother),
          mergeState_other (hrestNe other hother) hotherNext, blocks_unfiled]
      let merged := mergeState (unfiled state (state.blocks block).next) block
        (state.blocks block).next
      have hsame : merged.usedBuddyHashTable = state.usedBuddyHashTable ∧
          merged.lists = state.lists ∧ merged.kallocLive.Sublist state.kallocLive := by
        obtain ⟨htable', hlists', hkalloc'⟩ := unfiled_rest state (state.blocks block).next
        obtain ⟨htable'', hlists'', hkalloc''⟩ := mergeState_rest
          (unfiled state (state.blocks block).next) block (state.blocks block).next
        exact ⟨htable''.trans htable', hlists''.trans hlists', hkalloc' ▸ hkalloc''⟩
      refine ⟨after, ?_, htable.trans hsame.1, hlists.trans hsame.2.1, hkalloc ▸ hsame.2.2,
        .merged hnextFree hafter hother⟩
      simp only [buddyCoalesce, if_neg hnonnull, if_neg hnull, if_neg hmax, if_pos hmerges.2]
      change (buddyBlockFree (state.setBlock block (mergedHeader (state.blocks block)
        (state.blocks (state.blocks block).next))) (state.blocks block).next).bind _ = _
      rw [hfreed, bind_some, hfile]
    · have htest : ¬ Mergeable (state.blocks block) (state.blocks (state.blocks block).next) :=
        fun h ↦ hmerges ⟨hfiles, h⟩
      rw [hkeeps hmerges]
      refine ⟨state, ?_, rfl, rfl, Sublist.refl _, .left ⟨hfiles, hmerges⟩ hacc fun _ _ ↦ rfl⟩
      simp only [buddyCoalesce, if_neg hnonnull, if_neg hnull, if_neg hmax, if_neg htest]

theorem Merges.facts (hmerges : Merges state block) (hne : (state.blocks block).next ≠ block) :
    (state.blocks block).order < MAX_ORDER ∧
      Accounted fits pages (unfiled state (state.blocks block).next)
        ((state.blocks block).next :: block :: rest.erase (state.blocks block).next) := by
  have hblock : block ∈ live state (block :: rest) := mem_cons_self
  obtain ⟨hnull, hmax⟩ := not_or.mp hmerges.1
  have horder := hmerges.2.1
  have hle := (hacc.sound block hblock).order
  have hlt : (state.blocks block).order < MAX_ORDER := Nat.lt_of_le_of_ne hle hmax
  have hnext := hacc.next_mem_live hblock hnull (horder ▸ hle)
  exact ⟨hlt, hacc.unfiled hne hnext (horder ▸ hlt)⟩

theorem buddyCoalesce_spec (hfree : (state.blocks block).isFree = .free)
    (hmerge : Merges state block → MergeFits fits state block) :
    ∃ after, buddyCoalesce state block = some after ∧
      after.usedBuddyHashTable = state.usedBuddyHashTable ∧ after.lists = state.lists ∧
      Settled fits pages state after block rest := by
  have hmerged : Merges state block → (state.blocks block).next ≠ block ∧
      ∀ merged, merged = mergeState (unfiled state (state.blocks block).next) block
        (state.blocks block).next →
          Accounted fits pages merged (block :: rest.erase (state.blocks block).next) := by
    intro hmerges
    obtain ⟨hadjacent, hfits⟩ := hmerge hmerges
    obtain ⟨horder, -, hzone, -⟩ := hmerges.2
    have hne : (state.blocks block).next ≠ block := by
      intro h
      rw [h] at hadjacent
      have hpos : 0 < 2 ^ (state.blocks block).order * PAGE_SIZE :=
        Nat.mul_pos (Nat.two_pow_pos _) (by decide)
      omega
    obtain ⟨hlt, hunfiled⟩ := hmerges.facts hacc hne
    refine ⟨hne, fun merged hmerged ↦ ?_⟩
    rw [hmerged]
    exact hunfiled.merge (by simp) (by simpa using horder) (by simpa using hlt)
      (by simpa using hzone) (by simpa using hadjacent) (by simpa using hfits)
  obtain ⟨after, hcoalesce, htable, hlists, -, hsettled⟩ :=
    buddyCoalesce_settles hacc hfree (fun _ ↦ rfl) hmerged
  exact ⟨after, hcoalesce, htable, hlists, hsettled⟩

end

/-- `buddy_free` marks the block before it looks at the successor, which may be the block itself. -/
def markFree (state : State) (block : Ptr) : State :=
  state.setBlock block { state.blocks block with isFree := .free, inTreeFlag := false }

theorem markFree_other {other : Ptr} (hne : other ≠ block) :
    (markFree state block).blocks other = state.blocks other := by
  simp [markFree, setBlock, hne]

theorem buddyFree_spec (hacc : Accounted fits pages state (block :: rest))
    (htabled : Tabled pool state small) (hblock : block ∈ small) (hnodup : small.Nodup)
    (hsmall : ∀ other ∈ small, other ∈ block :: rest)
    (hused : ∀ other ∈ small, (state.blocks other).isFree = .used)
    (hstart : (state.blocks block).startAddress = addr)
    (hunique : ∀ other ∈ small, (state.blocks other).startAddress = addr → other = block)
    (htail : BucketTailUsable state.lists state.usedBuddyHashTable
      (bucketOf state.blocks block) block)
    (hmerge : Merges (markFree state block) block → MergeFits fits (markFree state block) block) :
    ∃ after, buddyFree state addr = some after ∧ Tabled pool after (small.erase block) ∧
      Settled fits pages (markFree state block) after block rest := by
  have haligned := (hacc.sound block mem_cons_self).aligned
  have hnonnull : block ≠ NULL := fun h ↦
    hacc.nonnull (mem_append_left _ (h ▸ mem_cons_self))
  obtain ⟨lists, table, hremove, htabled'⟩ := removeUsed_spec htabled haligned hblock hnodup htail
  let marked : State := { markFree state block with
    lists := lists
    usedBuddyHashTable := table
    totalAllocated := (state.totalAllocated + 2 ^ 64 - 2 ^ (state.blocks block).order) % 2 ^ 64 }
  have hmarked : Accounted fits pages marked (block :: rest) := by
    have h := hacc.setBlock mem_cons_self
      { state.blocks block with isFree := .free, inTreeFlag := false } rfl rfl rfl rfl rfl
    exact h.recount rfl rfl rfl rfl
  have hfree : (marked.blocks block).isFree = .free := by
    simp [marked, markFree, setBlock]
  obtain ⟨after, hcoalesce, htable, hlists, hsettled⟩ :=
    buddyCoalesce_spec hmarked hfree hmerge
  refine ⟨after, ?_, ?_, ?_⟩
  · have hfind := findUsed_of_mem htabled (hstart ▸ haligned) hblock hstart hunique
    have hremove' : removeFromBucket state.lists state.usedBuddyHashTable
        (hash addr HASH_TABLE_STATIC_POOL_SIZE) block = some (lists, table, KERN_SUCCESS) := by
      rw [← hstart]
      exact hremove
    have hsuccess : KERN_SUCCESS ≠ NODE_NOT_FOUND := by decide
    simp only [buddyFree, hfind, bind_eq_bind, bind_some, if_neg hnonnull, hremove',
      if_neg hsuccess]
    exact hcoalesce
  · refine htabled'.congr hlists htable fun other hother ↦ ?_
    have hne : other ≠ block := fun h ↦ (Nodup.not_mem_erase hnodup) (h ▸ hother)
    have hrest : other ∈ rest :=
      (mem_cons.mp (hsmall other (mem_of_mem_erase hother))).resolve_left hne
    have hsame : marked.blocks other = state.blocks other := markFree_other hne
    rw [hsettled.kept hrest (by rw [hsame]; exact hused other (mem_of_mem_erase hother)), hsame]
  · cases hsettled with
    | filed hacc hkept => exact .filed hacc hkept
    | merged hfree hacc hkept => exact .merged hfree hacc hkept
    | left hneither hacc hkept => exact .left hneither hacc hkept

end DionysOS.Memory.Pmm
