import DionysOS.Memory.PmmRounding
import DionysOS.Memory.PmmTaking

/-!
# Allocation of blocks below the maximal order

`buddy_alloc` takes a block of the wanted order, or splits the first larger one. `Picked` is what
this leaves behind: the accounts hold, and no other block outside the trees has changed. `Granted`
adds that the block is in the table of used blocks. Blocks that the search takes out of the tree and
does not use, because they start at address zero, appear as `dropped`.
-/

namespace DionysOS.Memory.Pmm

open DataStructures List Option SinglyLinkedList Function State
open DataStructures.HashTable

variable {fits : ℕ → ℕ → Prop} {pages : List (ℕ × ℕ)} {pool : List Ptr} {state : State}
  {others small : List Ptr} {block : Ptr} {zone : ℕ} {allocation alloc : Allocation}

def bucketOf (blocks : BlockMemory) (block : Ptr) : ℕ :=
  hash (blocks block).startAddress HASH_TABLE_STATIC_POOL_SIZE

/-- The table holds the blocks `small`, each in the bucket of its address. -/
def Tabled (pool : List Ptr) (state : State) (small : List Ptr) : Prop :=
  ∃ entries, Holds pool state.lists state.usedBuddyHashTable entries ∧
    ∀ index < HASH_TABLE_STATIC_POOL_SIZE,
      entries index ~ small.filter fun block ↦ bucketOf state.blocks block == index

variable {after : State} {key order req : ℕ} {supply : List Ptr}

theorem Tabled.congr (htabled : Tabled pool state small) (hlists : after.lists = state.lists)
    (htable : after.usedBuddyHashTable = state.usedBuddyHashTable)
    (hstart : ∀ block ∈ small, (after.blocks block).startAddress =
      (state.blocks block).startAddress) : Tabled pool after small := by
  obtain ⟨entries, hholds, hentries⟩ := htabled
  refine ⟨entries, by rwa [hlists, htable], fun index hidx ↦ ?_⟩
  have hfilter : small.filter (fun block ↦ bucketOf after.blocks block == index) =
      small.filter fun block ↦ bucketOf state.blocks block == index := by
    apply filter_congr
    intro block hblock
    rw [bucketOf, hstart block hblock, bucketOf]
  rw [hfilter]
  exact hentries index hidx

/-- What `_kalloc` promises for one allocation. -/
@[mk_iff]
structure Provided (pool : List Ptr) (state : State) (allocation : Allocation) : Prop where
  supplied : Supplied state allocation.descriptors
  enough : MAX_ORDER ≤ allocation.descriptors.length
  listNode : Fresh pool state.lists allocation.listNode

instance (pool : List Ptr) (state : State) (allocation : Allocation) :
    Decidable (Provided pool state allocation) :=
  have := decidable_of_iff' _ (supplied_iff state allocation.descriptors)
  decidable_of_iff' _ (provided_iff pool state allocation)

theorem insertUsed_spec (htabled : Tabled pool state small)
    (haligned : PAGE_SIZE ∣ (state.blocks block).startAddress) (alloc : Allocation)
    (hfresh : Fresh pool state.lists alloc.listNode) :
    ∃ lists table, insertUsed state block alloc =
        some { state with lists := lists, usedBuddyHashTable := table } ∧
      Tabled pool { state with lists := lists, usedBuddyHashTable := table } (block :: small) := by
  obtain ⟨entries, hholds, hentries⟩ := htabled
  have hbucket : bucketOf state.blocks block < HASH_TABLE_STATIC_POOL_SIZE :=
    hash_lt_of_pageAligned haligned
  obtain ⟨lists, table, hinsert, hafter⟩ :=
    staticHashTableInsert_spec hholds hbucket hfresh block
  refine ⟨lists, table, by simp [insertUsed, hinsert], _, hafter, fun idx hidx ↦ ?_⟩
  change update entries (bucketOf state.blocks block) _ idx ~
    (block :: small).filter fun other ↦ bucketOf state.blocks other == idx
  by_cases hsame : idx = bucketOf state.blocks block
  · subst hsame
    simp only [update_self, filter_cons, beq_self_eq_true, if_true]
    exact (hentries _ hidx).cons block
  · have hother : (bucketOf state.blocks block == idx) = false := by
      simpa using Ne.symm hsame
    rw [update_of_ne hsame, filter_cons]
    simp only [hother, Bool.false_eq_true, if_false]
    exact hentries idx hidx

structure Granted (fits : ℕ → ℕ → Prop) (pages : List (ℕ × ℕ)) (pool : List Ptr)
    (before after : State) (others small dropped : List Ptr) (block : Ptr) (order zone : ℕ) :
    Prop where
  accounted : Accounted fits pages after (block :: (dropped ++ others))
  tabled : Tabled pool after (block :: small)
  kept : ∀ other ∈ others, after.blocks other = before.blocks other
  inHand : InHand (after.blocks block) order
  zone : (after.blocks block).zone = zone

theorem Accounted.notMem_others (hacc : Accounted fits pages state (block :: others)) :
    block ∉ others := by
  have hnodup := hacc.nodup.of_append_left.of_append_left
  exact (nodup_cons.mp hnodup).1

/-- The blocks that the search over the orders from `index` on would come across, in this order. -/
def candidates (state : State) (zone index : ℕ) : List Ptr :=
  (range' index (MAX_ORDER + 1 - index)).flatMap (state.buddyFreeListZone zone)

theorem exists_of_head?_candidates {idx : ℕ} {first : Ptr}
    (hfirst : (candidates state zone idx).head? = some first) :
    ∃ key, idx ≤ key ∧ key ≤ MAX_ORDER ∧
      (state.buddyFreeListZone zone key).head? = some first ∧
      ∀ lower, idx ≤ lower → lower < key → state.buddyFreeListZone zone lower = [] := by
  have hrange : ∀ (count idx : ℕ),
      ((range' idx count).flatMap (state.buddyFreeListZone zone)).head? = some first →
      ∃ key, idx ≤ key ∧ key < idx + count ∧
        (state.buddyFreeListZone zone key).head? = some first ∧
        ∀ lower, idx ≤ lower → lower < key → state.buddyFreeListZone zone lower = [] := by
    intro count
    induction count with
    | zero =>
      intro idx hhead
      simp at hhead
    | succ count ih =>
      intro idx hhead
      rw [range'_succ, flatMap_cons] at hhead
      cases htree : state.buddyFreeListZone zone idx with
      | nil =>
        rw [htree, nil_append] at hhead
        obtain ⟨key, hle, hlt, hkey, hlower⟩ := ih (idx + 1) hhead
        refine ⟨key, by omega, by omega, hkey, fun lower hle' hlt' ↦ ?_⟩
        rcases eq_or_lt_of_le hle' with rfl | hlt''
        · exact htree
        · exact hlower lower hlt'' hlt'
      | cons block rest =>
        rw [htree, cons_append, head?_cons] at hhead
        refine ⟨idx, le_rfl, by omega, by rw [htree, head?_cons, hhead], ?_⟩
        exact fun lower hle hlt ↦ absurd hle (not_le.mpr hlt)
  obtain ⟨key, hle, hlt, hkey⟩ := hrange _ idx hfirst
  exact ⟨key, hle, by omega, hkey⟩

/-- What the taking of a block leaves behind; the table is not touched. -/
structure Picked (fits : ℕ → ℕ → Prop) (pages : List (ℕ × ℕ)) (before after : State)
    (others dropped : List Ptr) (block : Ptr) (order zone : ℕ) : Prop where
  accounted : Accounted fits pages after (block :: (dropped ++ others))
  kept : ∀ other ∈ others, after.blocks other = before.blocks other
  table : after.usedBuddyHashTable = before.usedBuddyHashTable
  lists : after.lists = before.lists
  inHand : InHand (after.blocks block) order
  zone : (after.blocks block).zone = zone

/-- The state while the search goes through the larger orders: only the trees have changed. -/
structure Searching (fits : ℕ → ℕ → Prop) (pages : List (ℕ × ℕ)) (before : State)
    (others : List Ptr) (state : State) (dropped : List Ptr) : Prop where
  accounted : Accounted fits pages state (dropped ++ others)
  blocks : state.blocks = before.blocks
  table : state.usedBuddyHashTable = before.usedBuddyHashTable
  lists : state.lists = before.lists
  kalloc : state.kallocLive = before.kallocLive

theorem Accounted.filed_ne_null (hacc : Accounted fits pages state others)
    (hzone : zone < ZONES) (hblock : block ∈ state.buddyFreeListZone zone key) :
    block ≠ NULL := by
  rintro rfl
  have hle := (hacc.filed zone hzone key NULL hblock).le
  exact hacc.nonnull (mem_append_left _ (mem_append_right _
    (mem_allFiled.mpr ⟨zone, hzone, key, hle, hblock⟩)))

/-- The allocation finds a block and does not lose one: a block of the order is filed, or the first
larger one does not start at address zero. -/
def FindsBlock (state : State) (zone order : ℕ) : Prop :=
  state.buddyFreeListZone zone order ≠ [] ∨
    ∃ first, (candidates state zone (order + 1)).head? = some first ∧
      (state.blocks first).startAddress ≠ 0

instance (state : State) (zone order : ℕ) : Decidable (FindsBlock state zone order) :=
  inferInstanceAs (Decidable (_ ∨ ∃ first, first ∈ (candidates state zone (order + 1)).head? ∧ _))

section

variable (hhalving : Halving fits) (hzone : zone < ZONES)
  (hacc : Accounted fits pages state others)
include hhalving hzone hacc

theorem splitFirst_spec {rest : List Ptr} (htree : state.buddyFreeListZone zone key = block :: rest)
    (hkey : order ≤ key) (hsupplied : Supplied state supply) :
    (∀ after, splitDown block order (MAX_ORDER + 1) (inHandState state zone key block rest) supply =
      some after → Picked fits pages state after others [] block order zone) ∧
    (MAX_ORDER ≤ supply.length → (splitDown block order (MAX_ORDER + 1)
      (inHandState state zone key block rest) supply).isSome = true) := by
  have hfiled := hacc.filed zone hzone key block (by simp [htree])
  have hpopped := hacc.unfile hzone (Perm.of_eq htree)
  have hinHand : Accounted fits pages (inHandState state zone key block rest) (block :: others) :=
    hpopped.setBlock mem_cons_self _ rfl rfl rfl rfl rfl
  have hhdr : (inHandState state zone key block rest).blocks block =
      { state.blocks block with inTreeFlag := false } := by
    simp [inHandState, setBlock]
  have hhand : InHand ((inHandState state zone key block rest).blocks block)
      (order + (key - order)) := by
    rw [hhdr]
    exact ⟨hfiled.order.trans (by omega), hfiled.isFree, rfl⟩
  have habove : key - order ≤ MAX_ORDER := (Nat.sub_le ..).trans hfiled.le
  obtain ⟨hreturned, hret⟩ := splitDown_spec hhalving mem_cons_self order
    (key - order) (Nat.lt_succ_of_le habove) hinHand hhand
    { hsupplied with }
  constructor
  · intro after hsplit
    obtain ⟨supply', hafter, hhand', horigin, hkept, -⟩ := hreturned after hsplit
    refine ⟨hafter, fun other hother ↦ ?_, hkept.table, hkept.lists, hhand', ?_⟩
    · have hne : other ≠ block := fun h ↦ hpopped.notMem_others (h ▸ hother)
      rw [hkept.blocks other (mem_cons_of_mem _ hother) hne]
      simp [inHandState, setBlock, setEntries, hne]
    · rw [horigin.2, hhdr]
      exact hfiled.zone
  · intro henough
    refine hret (habove.trans (henough.trans ?_))
    rw [spareDescriptors, length_append]
    exact Nat.le_add_left ..

/-- **Taking a block for an order.** A block that is taken is picked. The call returns if there are
enough descriptors, and it returns a block if it finds one. -/
theorem takeOrder_spec (hsupplied : Supplied state supply) (horder : order < MAX_ORDER) :
    (∀ after block, takeOrder state order zone supply = some (after, block) → block ≠ NULL →
      ∃ dropped, Picked fits pages state after others dropped block order zone ∧
        (FindsBlock state zone order → dropped = [])) ∧
    (MAX_ORDER ≤ supply.length → ∃ after block, takeOrder state order zone supply =
      some (after, block) ∧ (FindsBlock state zone order → block ≠ NULL)) := by
  cases htree : state.buddyFreeListZone zone order with
  | cons block rest =>
    have hmem : block ∈ state.buddyFreeListZone zone order := by simp [htree]
    have hnonnull := hacc.filed_ne_null hzone hmem
    obtain ⟨hreturned, hret⟩ :=
      splitFirst_spec hhalving hzone hacc htree le_rfl hsupplied
    rw [takeOrder_of_cons hzone htree hnonnull (hacc.filed zone hzone order block hmem).order]
    constructor
    · intro after found hcall _
      obtain ⟨split, hsplit, heq⟩ := map_eq_some_iff.mp hcall
      cases heq
      exact ⟨[], hreturned after hsplit, fun _ ↦ rfl⟩
    · intro henough
      obtain ⟨split, hsplit⟩ := isSome_iff_exists.mp (hret henough)
      exact ⟨split, block, by rw [hsplit]; rfl, fun _ ↦ hnonnull⟩
  | nil =>
    rw [takeOrder_of_nil hzone htree]
    have hstart : Searching fits pages state others state [] := ⟨hacc, rfl, rfl, rfl, rfl⟩
    have houtcome : LargerOutcome (Searching fits pages state others) zone order (order + 1) supply
        state [] (takeLarger zone order supply ((filedBlocks state zone).length + MAX_ORDER + 2) state
          (order + 1)) := by
      apply takeLarger_outcome hzone _ _ order supply _ hstart (Nat.succ_le_succ horder.le) (by omega)
      · intro mid dropped key block hsearching hblock
        exact ⟨hsearching.accounted.filed_ne_null hzone hblock,
          (hsearching.accounted.filed zone hzone key block hblock).order⟩
      · intro mid dropped key block rest hsearching htree
        exact { hsearching with
          accounted := hsearching.accounted.unfile hzone (Perm.of_eq htree) }
    -- With no block of the order itself, the first larger one is usable.
    have hfinds : FindsBlock state zone order → ∃ key, order + 1 ≤ key ∧ key ≤ MAX_ORDER ∧
        Usable state zone key ∧ ∀ lower, order + 1 ≤ lower → lower < key →
          state.buddyFreeListZone zone lower = [] := by
      rintro (hnonempty | ⟨first, hhead, hne⟩)
      · exact absurd htree hnonempty
      · obtain ⟨key, hle, hmax, hkey, hlower⟩ := exists_of_head?_candidates hhead
        exact ⟨key, hle, hmax, ⟨first, hkey, hne⟩, hlower⟩
    cases houtcome with
    | nothing after dropped hres hsearching hnone hempty =>
      rw [hres]
      refine ⟨fun after block h hnonnull ↦ ?_, fun _ ↦ ⟨after, NULL, rfl, fun h ↦ ?_⟩⟩
      · cases h
        exact absurd rfl hnonnull
      · obtain ⟨key, hle, hmax, husable, -⟩ := hfinds h
        exact absurd husable (hnone key hle hmax)
    | found key mid dropped block rest hle hkey husable hleast hsearching htree' hempty hres =>
      have hsupplied' : Supplied mid supply := { hsupplied with
        notLive := fun other hother ↦ hsearching.kalloc ▸ hsupplied.notLive other hother }
      obtain ⟨hreturned, hret⟩ := splitFirst_spec hhalving hzone hsearching.accounted htree'
        (Nat.le_of_succ_le hle) hsupplied'
      rw [hres]
      constructor
      · intro after found hcall _
        obtain ⟨split, hsplit, heq⟩ := map_eq_some_iff.mp hcall
        cases heq
        have hpicked := hreturned after hsplit
        refine ⟨dropped, ⟨hpicked.accounted, fun other hother ↦
          (hpicked.kept other (mem_append_right _ hother)).trans (by rw [hsearching.blocks]),
          hpicked.table.trans hsearching.table, hpicked.lists.trans hsearching.lists, hpicked.inHand,
          hpicked.zone⟩, fun h ↦ (hempty fun lower hle' hlt ↦ ?_).2⟩
        obtain ⟨least, hle'', -, husable', hlower⟩ := hfinds h
        apply hlower lower hle'
        by_contra hge
        exact hleast least hle'' (by omega) husable'
      · intro henough
        obtain ⟨split, hsplit⟩ := isSome_iff_exists.mp (hret henough)
        exact ⟨split, block, by rw [hsplit]; rfl, fun _ ↦ hsearching.accounted.filed_ne_null hzone
          (show block ∈ mid.buddyFreeListZone zone key by simp [htree'])⟩

theorem allocOrder_spec (htabled : Tabled pool state small)
    (hsmall : ∀ other ∈ small, other ∈ others) (hprovided : Provided pool state alloc)
    (horder : order < MAX_ORDER) :
    ∃ after block dropped, allocOrder state order zone alloc = some (after, block) ∧
      (block ≠ NULL → Granted fits pages pool state after others small dropped block order zone) ∧
      (FindsBlock state zone order → block ≠ NULL ∧ dropped = []) := by
  obtain ⟨hpicked, hret⟩ := takeOrder_spec hhalving hzone hacc hprovided.supplied horder
  obtain ⟨taken, block, htake, hfinds⟩ := hret hprovided.enough
  rw [allocOrder_eq, htake, bind_some]
  by_cases hnull : block = NULL
  · subst hnull
    exact ⟨taken, NULL, [], enterUsed_null .., fun h ↦ absurd rfl h, fun h ↦ ⟨hfinds h, rfl⟩⟩
  · obtain ⟨dropped, hpick, hdropped⟩ := hpicked taken block htake hnull
    have haligned := (hpick.accounted.sound block (mem_append_left _ mem_cons_self)).aligned
    have htabled' : Tabled pool taken small := htabled.congr hpick.lists hpick.table
      fun other hother ↦ by rw [hpick.kept other (hsmall other hother)]
    obtain ⟨lists, table, hinsert, hused⟩ := insertUsed_spec htabled' haligned alloc
      (by rw [hpick.lists]; exact hprovided.listNode)
    refine ⟨_, block, dropped, by rw [enterUsed_of_ne _ _ hnull, hinsert]; rfl, fun _ ↦ ?_,
      fun h ↦ ⟨hfinds h, hdropped h⟩⟩
    exact ⟨hpick.accounted.recount rfl rfl rfl rfl, hused, hpick.kept, hpick.inHand, hpick.zone⟩

end

/-- What `phys_alloc` leaves behind for a request below the maximal order. -/
structure Handed (fits : ℕ → ℕ → Prop) (pages : List (ℕ × ℕ)) (pool : List Ptr)
    (before after : State) (others small dropped : List Ptr) (block : Ptr) (order zone : ℕ) :
    Prop where
  accounted : Accounted fits pages after (block :: (dropped ++ others))
  tabled : Tabled pool after (block :: small)
  kept : ∀ other ∈ others, after.blocks other = before.blocks other
  order : (after.blocks block).order = order
  zone : (after.blocks block).zone = zone
  isFree : (after.blocks block).isFree = .used

/-- The order that `buddy_alloc` looks for first. -/
def requestOrder (pages : ℕ) : Option ℕ :=
  (range MAX_ORDER).find? fun order ↦ roundedPages pages == 2 ^ order

theorem roundedPages_ge (hrequest : request ≤ 2 ^ MAX_ORDER) : request ≤ roundedPages request := by
  rw [roundedPages_eq (hrequest.trans (by decide))]
  exact Nat.le_pow_clog (by decide) request

theorem requestOrder_eq_clog (hrequest : req ≤ 2 ^ (MAX_ORDER - 1)) :
    requestOrder req = some (Nat.clog 2 req) := by
  have horder : Nat.clog 2 req ≤ MAX_ORDER - 1 := Nat.clog_le_of_le_pow hrequest
  rw [requestOrder, roundedPages_eq (hrequest.trans (by decide)), find?_range_eq_some]
  refine ⟨beq_self_eq_true _, mem_range.mpr (Nat.lt_of_le_pred (by decide) horder), ?_⟩
  intro smaller hsmaller
  have hne := (Nat.pow_lt_pow_right (by decide : 1 < 2) hsmaller).ne'
  simpa using hne

theorem requestOrder_eq_some (hrequest : requestOrder req = some order) :
    order < MAX_ORDER ∧ roundedPages req = 2 ^ order := by
  have hmem := mem_of_find?_eq_some hrequest
  have hfound := find?_some hrequest
  exact ⟨mem_range.mp hmem, by simpa using hfound⟩

theorem buddyAlloc_eq (state : State) {pages : ℕ} (hpages : pages ≤ 2 ^ MAX_ORDER) (zone : ℕ)
    (allocation : Allocation) : buddyAlloc state pages zone allocation =
      match requestOrder pages with
      | none => some (state, NULL)
      | some order => allocOrder state order zone allocation :=
  if_neg (not_lt.mpr hpages)

/-- The state when `phys_alloc` has marked the block that it returns. -/
def handOut (state : State) (block : Ptr) : State :=
  { state.setBlock block { state.blocks block with isFree := .used } with
    totalAllocated := (state.totalAllocated + 2 ^ (state.blocks block).order) % 2 ^ 64 }

@[simp]
theorem handOut_block (state : State) (block : Ptr) :
    (handOut state block).blocks block = { state.blocks block with isFree := .used } := by
  simp [handOut, setBlock]

theorem handOut_other {other : Ptr} (hne : other ≠ block) :
    (handOut state block).blocks other = state.blocks other := by
  simp [handOut, setBlock, hne]

theorem physAlloc_of_buddyAlloc {mid : State}
    (hcall : buddyAlloc state req zone alloc = some (mid, block))
    (hne : block ≠ NULL) : physAlloc state req zone alloc =
      some (handOut mid block, (mid.blocks block).startAddress) := by
  simp only [physAlloc, hcall, bind_eq_bind, bind_some, if_neg hne]
  rfl

theorem physAlloc_eq_some {addr : ℕ}
    (hcall : physAlloc state req zone alloc = some (after, addr)) :
    ∃ mid block, buddyAlloc state req zone alloc = some (mid, block) ∧
      block ≠ NULL ∧ after = handOut mid block ∧ addr = (mid.blocks block).startAddress := by
  obtain ⟨⟨mid, block⟩, hbuddy, hcall⟩ := bind_eq_some_iff.mp hcall
  simp only at hcall
  split at hcall
  · cases hcall
  · rename_i hne
    cases hcall
    exact ⟨mid, block, hbuddy, hne, rfl, rfl⟩

/-- **Allocation below the maximal order.** If the call returns, the block it hands out is in the
accounts; it returns if it finds a block, and then it drops none. -/
theorem physAlloc_spec (hhalving : Halving fits) (hzone : zone < ZONES)
    (hacc : Accounted fits pages state others) (htabled : Tabled pool state small)
    (hsmall : ∀ other ∈ small, other ∈ others) (hprovided : Provided pool state alloc)
    (hrequest : req ≤ 2 ^ MAX_ORDER) :
    (∀ after addr, physAlloc state req zone alloc = some (after, addr) →
      ∃ order block dropped, requestOrder req = some order ∧
        addr = (after.blocks block).startAddress ∧
        Handed fits pages pool state after others small dropped block order zone ∧
        (FindsBlock state zone order → dropped = [])) ∧
    ∀ order, requestOrder req = some order → FindsBlock state zone order →
      (physAlloc state req zone alloc).isSome = true := by
  have hlarge : ¬ req > 2 ^ MAX_ORDER := not_lt.mpr hrequest
  cases hfind : requestOrder req with
  | none =>
    have hnone : physAlloc state req zone alloc = none := by
      unfold requestOrder at hfind
      simp [physAlloc, buddyAlloc, hlarge, hfind]
    refine ⟨fun after addr hsome ↦ ?_, fun order h ↦ by cases h⟩
    rw [hnone] at hsome
    cases hsome
  | some order =>
    obtain ⟨mid, block, dropped, halloc, hgranted, hfinds⟩ := allocOrder_spec hhalving hzone
      hacc htabled hsmall hprovided (requestOrder_eq_some hfind).1
    have hbuddy : buddyAlloc state req zone alloc = some (mid, block) := by
      unfold requestOrder at hfind
      simp [buddyAlloc, hlarge, hfind, halloc]
    refine ⟨fun after addr hsome ↦ ?_, fun order' h hfinds' ↦ ?_⟩
    · obtain ⟨mid', block', hcall, hnonnull, rfl, rfl⟩ := physAlloc_eq_some hsome
      cases hbuddy.symm.trans hcall
      have hgrant := hgranted hnonnull
      have hused := hgrant.accounted.setBlock mem_cons_self
        { mid.blocks block with isFree := .used } rfl rfl rfl rfl rfl
      have hstart : ∀ other, ((handOut mid block).blocks other).startAddress =
          (mid.blocks other).startAddress := by
        intro other
        by_cases h : other = block
        · rw [h, handOut_block]
        · rw [handOut_other h]
      refine ⟨order, block, dropped, rfl, (hstart block).symm, ⟨hused.recount rfl rfl rfl rfl,
        hgrant.tabled.congr rfl rfl fun other _ ↦ hstart other, fun other hother ↦ ?_, ?_, ?_, ?_⟩,
        fun h ↦ (hfinds h).2⟩
      · have hne : other ≠ block := fun h ↦
          hgrant.accounted.notMem_others (h ▸ mem_append_right _ hother)
        exact (handOut_other hne).trans (hgrant.kept other hother)
      · rw [handOut_block]
        exact hgrant.inHand.order
      · rw [handOut_block]
        exact hgrant.zone
      · rw [handOut_block]
    · obtain rfl : order = order' := some.inj h
      simp [physAlloc, hbuddy, (hfinds hfinds').1]

end DionysOS.Memory.Pmm
