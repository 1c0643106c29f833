import DionysOS.Memory.PmmConservation

/-!
# Taking a block out of one tree

What the taking of a block does, from what the tree of one zone looks like and nothing else:
`Stocked` says that the tree is a multimap of free blocks and that there are descriptors that are
not in it.

A split moves the pages of the upper half into the tree and keeps all pages (`Stocked.divide`,
`Stocked.pages_divide`). `takeOrder_takes` is the result for the search and the splits together.
-/

namespace DionysOS.Memory.Pmm

open DataStructures List State

/-- A block that the tree of `zone` may have under `key`. -/
structure FreeBlock (zone key : ℕ) (header : BuddyBlock) : Prop where
  zone : header.zone = zone
  order : header.order = key
  le : key ≤ MAX_ORDER
  isFree : header.isFree = .free
  aligned : PAGE_SIZE ∣ header.startAddress

/-- The tree of `zone` is a multimap of free blocks. They, the blocks `held` and the descriptors
that the code may still get are all different. -/
structure Stocked (state : State) (zone : ℕ) (supply held : List Ptr) : Prop where
  filed : ∀ key, ∀ block ∈ state.buddyFreeListZone zone key,
    FreeBlock zone key (state.blocks block)
  nodup : (held ++ (filedBlocks state zone ++ spareDescriptors state supply)).Nodup
  nonnull : NULL ∉ filedBlocks state zone ++ spareDescriptors state supply

variable {state taken : State} {zone key order : ℕ} {block new : Ptr} {supply held : List Ptr}

theorem mem_filedBlocks : block ∈ filedBlocks state zone ↔
    ∃ key ≤ MAX_ORDER, block ∈ state.buddyFreeListZone zone key := by
  simp [filedBlocks, Nat.lt_succ_iff]

section

variable (hstocked : Stocked state zone supply held)
include hstocked

theorem Stocked.mem_filedBlocks
    (hblock : block ∈ state.buddyFreeListZone zone key) : block ∈ filedBlocks state zone :=
  Pmm.mem_filedBlocks.mpr ⟨key, (hstocked.filed key block hblock).le, hblock⟩

theorem Stocked.ne_null (hblock : block ∈ state.buddyFreeListZone zone key) : block ≠ NULL :=
  fun h ↦ hstocked.nonnull (mem_append_left _ (h ▸ hstocked.mem_filedBlocks hblock))

theorem Stocked.notMem_filed (hblock : block ∈ held) :
    block ∉ filedBlocks state zone := fun hfiled ↦
  (nodup_append.mp hstocked.nodup).2.2 block hblock block (mem_append_left _ hfiled) rfl

theorem Stocked.notMem_spare (hblock : block ∈ held) :
    block ∉ spareDescriptors state supply := fun hspare ↦
  (nodup_append.mp hstocked.nodup).2.2 block hblock block (mem_append_right _ hspare) rfl

theorem Stocked.pop {rest : List Ptr} (htree : state.buddyFreeListZone zone key = block :: rest) :
    Stocked (state.setEntries zone key rest) zone supply (block :: held) := by
  have hkey := (hstocked.filed key block (by simp [htree])).le
  have hperm : filedBlocks state zone ~
      [block] ++ filedBlocks (state.setEntries zone key rest) zone :=
    filedBlocks_setEntries hkey (Perm.of_eq htree)
  refine ⟨fun other member hmem ↦ ?_, ?_, fun hnull ↦ hstocked.nonnull ?_⟩
  · by_cases hother : other = key
    · subst hother
      apply hstocked.filed other member
      rw [htree]
      exact mem_cons_of_mem _ (by simpa [setEntries] using hmem)
    · exact hstocked.filed other member (by simpa [setEntries, hother] using hmem)
  · refine Perm.nodup_iff ?_ |>.mp hstocked.nodup
    calc held ++ (filedBlocks state zone ++ spareDescriptors state supply)
        ~ held ++ (block :: filedBlocks (state.setEntries zone key rest) zone ++
            spareDescriptors state supply) := (hperm.append_right _).append_left _
      _ ~ block :: held ++ (filedBlocks (state.setEntries zone key rest) zone ++
            spareDescriptors state supply) := perm_middle
  · rcases mem_append.mp hnull with h | h
    · exact mem_append_left _ (hperm.mem_iff.mpr (mem_cons_of_mem _ h))
    · exact mem_append_right _ h

end

theorem zonePages_pop (hkey : key ≤ MAX_ORDER) {rest : List Ptr}
    (htree : state.buddyFreeListZone zone key = block :: rest) : zonePages state zone ~
      blockPages (state.blocks block) ++ zonePages (state.setEntries zone key rest) zone :=
  (filedBlocks_setEntries hkey (Perm.of_eq htree : _ ~ [block] ++ rest)).flatMap_right _

theorem blockPages_halves (hdr fresh : BuddyBlock) (new : Ptr)
    (horder : hdr.order = order + 1) : blockPages hdr ~
      blockPages (lowerHalf hdr new order) ++ blockPages (upperHalf hdr fresh order) := by
  have hhalves := (zonedPages_halves hdr fresh new horder).map Prod.snd
  rw [map_append, map_snd_zonedPages, map_snd_zonedPages, map_snd_zonedPages] at hhalves
  exact hhalves.trans perm_append_comm

/-- What holds of the block `block` while the loop splits it: it is `above` orders too large, and
its pages and those of the tree are `pages`. -/
structure Dividing (before : State) (zone : ℕ) (held : List Ptr) (block : Ptr) (pages : List ℕ)
    (order above : ℕ) (state : State) (supply : List Ptr) : Prop where
  stocked : Stocked state zone supply (block :: held)
  inHand : InHand (state.blocks block) (order + above)
  bound : order + above ≤ MAX_ORDER
  inZone : (state.blocks block).zone = zone
  aligned : PAGE_SIZE ∣ (state.blocks block).startAddress
  enough : above ≤ (spareDescriptors state supply).length
  pages : blockPages (state.blocks block) ++ zonePages state zone ~ pages
  table : state.usedBuddyHashTable = before.usedBuddyHashTable
  lists : state.lists = before.lists

section Divide

variable {supply' : List Ptr} (hgotten : Gotten state taken supply supply' new)
  (hstocked : Stocked state zone supply (block :: held))
  (hzone : (state.blocks block).zone = zone) (hle : order ≤ MAX_ORDER)

include hgotten in
theorem dividedState_other {other : Ptr} (hblock : other ≠ block) (hnew : other ≠ new)
    (hdr : BuddyBlock) :
    (dividedState taken hdr block new order).blocks other = state.blocks other := by
  simp [dividedState, setEntries, splitState, setBlock, hblock, hnew,
    hgotten.blocks other hnew]

include hgotten hzone hle in
theorem filedBlocks_dividedState :
    filedBlocks (dividedState taken (state.blocks block) block new order) zone ~
      new :: filedBlocks state zone := by
  have hsame : filedBlocks (splitState taken (state.blocks block) block new order) zone =
      filedBlocks state zone := by
    simp only [filedBlocks, splitState, setBlock, hgotten.trees]
  rw [← hsame, dividedState, hzone]
  exact filedBlocks_append hle _ zone new

include hgotten hstocked in
theorem Stocked.ne_new : block ≠ new := by
  rintro rfl
  apply hstocked.notMem_spare mem_cons_self
  rw [hgotten.spare]
  exact mem_cons_self

include hgotten hstocked in
theorem Stocked.filed_ne {other : Ptr} (hother : other ∈ filedBlocks state zone) :
    other ≠ block ∧ other ≠ new := by
  refine ⟨fun h ↦ hstocked.notMem_filed mem_cons_self (h ▸ hother), fun h ↦ ?_⟩
  have hnodup := hstocked.nodup.of_append_right
  refine (nodup_append.mp hnodup).2.2 other hother new ?_ h
  rw [hgotten.spare]
  exact mem_cons_self

include hgotten hstocked hzone hle in
theorem Stocked.divide (haligned : PAGE_SIZE ∣ (state.blocks block).startAddress) :
    Stocked (dividedState taken (state.blocks block) block new order) zone supply'
      (block :: held) := by
  have hperm := filedBlocks_dividedState hgotten hzone hle
  set divided := dividedState taken (state.blocks block) block new order with hdef
  have hspare : spareDescriptors divided supply' = spareDescriptors taken supply' := rfl
  have hall : filedBlocks divided zone ++ spareDescriptors taken supply' ~
      filedBlocks state zone ++ spareDescriptors state supply := by
    rw [hgotten.spare]
    exact (hperm.append_right _).trans perm_middle.symm
  refine ⟨fun key member hmem ↦ ?_, ?_, ?_⟩
  · have htree : divided.buddyFreeListZone zone key =
        if key = order then state.buddyFreeListZone zone key ++ [new]
        else state.buddyFreeListZone zone key := by
      rw [hdef, dividedState, hzone, ← hgotten.trees]
      by_cases h : key = order
      · subst h
        simp [setEntries]
      · simp [setEntries, splitState, setBlock, h]
    have hold : ∀ {member}, member ∈ state.buddyFreeListZone zone key →
        FreeBlock zone key (divided.blocks member) := by
      intro member hmem
      obtain ⟨hblock, hnew⟩ := hstocked.filed_ne hgotten (hstocked.mem_filedBlocks hmem)
      rw [dividedState_other hgotten hblock hnew]
      exact hstocked.filed key member hmem
    rw [htree] at hmem
    split at hmem
    · rename_i hkey
      rcases mem_append.mp hmem with hmem | hmem
      · exact hold hmem
      · obtain rfl := mem_singleton.mp hmem
        have hhdr : divided.blocks member =
            upperHalf (state.blocks block) (taken.blocks member) order := splitState_new ..
        rw [hhdr]
        exact ⟨hzone, hkey.symm, hkey ▸ hle, rfl, Nat.dvd_add haligned (Nat.dvd_mul_left ..)⟩
    · exact hold hmem
  · rw [hspare]
    exact (hall.append_left _).nodup_iff.mpr hstocked.nodup
  · rw [hspare]
    exact fun h ↦ hstocked.nonnull (hall.mem_iff.mp h)

include hgotten hstocked hzone hle in
theorem Stocked.pages_divide (horder : (state.blocks block).order = order + 1) :
    blockPages ((dividedState taken (state.blocks block) block new order).blocks block) ++
        zonePages (dividedState taken (state.blocks block) block new order) zone ~
      blockPages (state.blocks block) ++ zonePages state zone := by
  have hperm := filedBlocks_dividedState hgotten hzone hle
  set divided := dividedState taken (state.blocks block) block new order
  set lower := lowerHalf (state.blocks block) new order
  set upper := upperHalf (state.blocks block) (taken.blocks new) order
  have hlower : divided.blocks block = lower := splitState_block (hstocked.ne_new hgotten) ..
  have hupper : divided.blocks new = upper := splitState_new ..
  have hsame : chainPages divided.blocks (filedBlocks state zone) = zonePages state zone := by
    apply flatMap_congr
    intro member hmem
    obtain ⟨hblock, hnew⟩ := hstocked.filed_ne hgotten hmem
    rw [dividedState_other hgotten hblock hnew]
  have htree : zonePages divided zone ~ blockPages upper ++ zonePages state zone := by
    refine (hperm.flatMap_right _).trans ?_
    rw [flatMap_cons, hupper]
    exact Perm.of_eq (congrArg _ hsame)
  rw [hlower]
  calc blockPages lower ++ zonePages divided zone
      ~ blockPages lower ++ (blockPages upper ++ zonePages state zone) := htree.append_left _
    _ = blockPages lower ++ blockPages upper ++ zonePages state zone := (append_assoc ..).symm
    _ ~ blockPages (state.blocks block) ++ zonePages state zone :=
        (blockPages_halves _ _ _ horder).symm.append_right _

end Divide

theorem Dividing.step {before : State} {pages : List ℕ} {above : ℕ} {supply' : List Ptr}
    (hdividing : Dividing before zone held block pages order (above + 1) state supply)
    (hget : buddyBlockGet state supply = some (taken, new, supply')) :
    Dividing before zone held block pages order above
      (dividedState taken (state.blocks block) block new (order + above)) supply' := by
  have hgotten := buddyBlockGet_gotten hget
  have hle : order + above ≤ MAX_ORDER := Nat.le_of_succ_le hdividing.bound
  have hne := hdividing.stocked.ne_new hgotten
  have hlower : (dividedState taken (state.blocks block) block new (order + above)).blocks block =
      lowerHalf (state.blocks block) new (order + above) := splitState_block hne ..
  constructor
  · exact hdividing.stocked.divide hgotten hdividing.inZone hle hdividing.aligned
  · rw [hlower]
    exact ⟨rfl, hdividing.inHand.isFree, hdividing.inHand.inTree⟩
  · exact hle
  · rw [hlower]
    exact hdividing.inZone
  · rw [hlower]
    exact hdividing.aligned
  · have henough := hdividing.enough
    rw [hgotten.spare, length_cons] at henough
    exact Nat.le_of_succ_le_succ henough
  · exact (hdividing.stocked.pages_divide hgotten hdividing.inZone hle hdividing.inHand.order).trans
      hdividing.pages
  · exact hgotten.table.trans hdividing.table
  · exact hgotten.lists.trans hdividing.lists

theorem Dividing.start {rest : List Ptr} (hstocked : Stocked state zone supply held)
    (htree : state.buddyFreeListZone zone key = block :: rest) (hle : order ≤ key)
    (henough : MAX_ORDER ≤ (spareDescriptors state supply).length) :
    Dividing state zone held block (zonePages state zone) order (key - order)
      (inHandState state zone key block rest) supply := by
  have hfree := hstocked.filed key block (by simp [htree])
  have hpopped := hstocked.pop htree
  have hhdr : (inHandState state zone key block rest).blocks block =
      { state.blocks block with inTreeFlag := false } := by
    simp [inHandState, setBlock]
  have hother : ∀ member ∈ filedBlocks (state.setEntries zone key rest) zone,
      (inHandState state zone key block rest).blocks member = state.blocks member := by
    intro member hmem
    have hne : member ≠ block := fun h ↦
      hpopped.notMem_filed mem_cons_self (h ▸ hmem)
    simp [inHandState, setBlock, setEntries, hne]
  have habove : order + (key - order) = key := Nat.add_sub_cancel' hle
  constructor
  · refine ⟨fun other member hmem ↦ ?_, hpopped.nodup, hpopped.nonnull⟩
    rw [hother member (hpopped.mem_filedBlocks hmem)]
    exact hpopped.filed other member hmem
  · rw [hhdr, habove]
    exact ⟨hfree.order, hfree.isFree, rfl⟩
  · rw [habove]
    exact hfree.le
  · rw [hhdr]
    exact hfree.zone
  · rw [hhdr]
    exact hfree.aligned
  · exact (Nat.sub_le ..).trans (hfree.le.trans henough)
  · have hpages : zonePages (inHandState state zone key block rest) zone =
        zonePages (state.setEntries zone key rest) zone :=
      flatMap_congr fun member hmem ↦ congrArg blockPages (hother member hmem)
    rw [hpages, hhdr]
    exact (zonePages_pop hfree.le htree).symm
  · rfl
  · rfl

/-- A block of the order is filed, or the search can use one of the larger ones. -/
def Serves (state : State) (zone order : ℕ) : Prop :=
  state.buddyFreeListZone zone order ≠ [] ∨
    ∃ key < MAX_ORDER + 1, order < key ∧ Usable state zone key

instance (state : State) (zone order : ℕ) : Decidable (Serves state zone order) :=
  instDecidableOr

def NoneAtZero (state : State) (zone : ℕ) : Prop :=
  ∀ block ∈ filedBlocks state zone, (state.blocks block).startAddress ≠ 0

theorem usable_iff (hstocked : Stocked state zone supply held) (hstart : NoneAtZero state zone) :
    Usable state zone key ↔ state.buddyFreeListZone zone key ≠ [] := by
  constructor
  · rintro ⟨block, hhead, -⟩ hempty
    simp [hempty] at hhead
  · intro hne
    obtain ⟨block, rest, htree⟩ := exists_cons_of_ne_nil hne
    have hmem : block ∈ state.buddyFreeListZone zone key := by simp [htree]
    exact ⟨block, by simp [htree], hstart block (hstocked.mem_filedBlocks hmem)⟩

/-- The state while the search goes through the larger orders. -/
structure Passing (before : State) (zone : ℕ) (supply : List Ptr) (state : State)
    (dropped : List Ptr) : Prop where
  stocked : Stocked state zone supply dropped
  unused : state.unusedBuddyBlocksList = before.unusedBuddyBlocksList
  table : state.usedBuddyHashTable = before.usedBuddyHashTable
  lists : state.lists = before.lists

/-- What the taking of a block comes to. -/
structure Takes (before : State) (zone order : ℕ) (after : State) (block : Ptr) : Prop where
  serves : block ≠ NULL ↔ Serves before zone order
  divided : block ≠ NULL → ∃ held pages supply,
    Dividing before zone held block pages order 0 after supply ∧
      (NoneAtZero before zone → pages = zonePages before zone)
  unchanged : block = NULL → NoneAtZero before zone → after = before

theorem splitDown_stocked {rest : List Ptr} (hzone : zone < ZONES)
    (hstocked : Stocked state zone supply held)
    (htree : state.buddyFreeListZone zone key = block :: rest) (hle : order ≤ key)
    (henough : MAX_ORDER ≤ (spareDescriptors state supply).length) :
    ∃ after supply', splitDown block order (MAX_ORDER + 1)
        (inHandState state zone key block rest) supply = some after ∧
      Dividing state zone held block (zonePages state zone) order 0 after supply' := by
  have hstart : Dividing state zone held block (zonePages state zone) order (key - order)
      (inHandState state zone key block rest) supply := Dividing.start hstocked htree hle henough
  have hkey := (hstocked.filed key block (by simp [htree])).le
  obtain ⟨hreturned, hret⟩ := splitDown_of_invariant
    (fun hdividing ↦ ⟨hdividing.inHand, hdividing.bound, hdividing.inZone.symm ▸ hzone⟩)
    (fun hdividing hget ↦ hdividing.step hget) (key - order) (MAX_ORDER + 1) hstart (by omega)
  obtain ⟨after, hsplit⟩ := Option.isSome_iff_exists.mp (hret hstart.enough)
  obtain ⟨supply', hdivided⟩ := hreturned after hsplit
  exact ⟨after, supply', hsplit, hdivided⟩

theorem takeLarger_takes (hzone : zone < ZONES) (hstocked : Stocked state zone supply [])
    (henough : MAX_ORDER ≤ (spareDescriptors state supply).length) (horder : order < MAX_ORDER)
    (hnone : state.buddyFreeListZone zone order = []) (fuel : ℕ) (hfuel : MAX_ORDER < order + fuel) :
    ∃ after block, takeLarger zone order supply fuel state (order + 1) = some (after, block) ∧
      Takes state zone order after block := by
  have hpassing : Passing state zone supply state [] := ⟨hstocked, rfl, rfl, rfl⟩
  have houtcome : LargerOutcome (Passing state zone supply) zone order (order + 1) supply state []
      (takeLarger zone order supply fuel state (order + 1)) := by
    apply takeLarger_outcome hzone _ _ order supply fuel hpassing (Nat.succ_le_succ horder.le)
      (by omega)
    · exact fun hpassing hblock ↦ ⟨hpassing.stocked.ne_null hblock,
        (hpassing.stocked.filed _ _ hblock).order⟩
    · exact fun hpassing htree ↦ { hpassing with
        stocked := hpassing.stocked.pop htree }
  cases houtcome with
  | nothing after dropped hres hpassing hunusable hempty =>
    refine ⟨after, NULL, hres, ⟨fun h ↦ absurd rfl h, ?_⟩, fun h ↦ absurd rfl h,
      fun _ hstart ↦ ?_⟩
    · rintro (hne | ⟨key, hkey, hlt, husable⟩)
      · exact absurd hnone hne
      · exact absurd husable (hunusable key hlt (Nat.le_of_lt_succ hkey))
    · refine (hempty fun key hle hmax ↦ ?_).1
      by_contra hne
      exact hunusable key hle hmax ((usable_iff hstocked hstart).mpr hne)
  | found key mid dropped block rest hle hkey husable hleast hpassing htree hempty hres =>
    have hspare : spareDescriptors mid supply = spareDescriptors state supply := by
      rw [spareDescriptors, hpassing.unused, spareDescriptors]
    obtain ⟨after, supply', hsplit, hdivided⟩ := splitDown_stocked hzone hpassing.stocked htree
      (Nat.le_of_succ_le hle) (by rw [hspare]; exact henough)
    have hnonnull : block ≠ NULL := hpassing.stocked.ne_null
      (show block ∈ mid.buddyFreeListZone zone key by simp [htree])
    refine ⟨after, block, by rw [hres, hsplit]; rfl, ⟨fun _ ↦ ?_, fun _ ↦ hnonnull⟩, fun _ ↦ ?_,
      fun h ↦ absurd h hnonnull⟩
    · exact .inr ⟨key, Nat.lt_succ_of_le hkey, hle, husable⟩
    · refine ⟨dropped, _, supply', { hdivided with
        table := hdivided.table.trans hpassing.table
        lists := hdivided.lists.trans hpassing.lists }, fun hstart ↦ ?_⟩
      -- With no block at address zero the orders below `key` are empty.
      have hsame : mid = state := (hempty fun lower hle' hlt ↦ by
        by_contra hne
        exact hleast lower hle' hlt ((usable_iff hstocked hstart).mpr hne)).1
      rw [hsame]

theorem takeOrder_takes (hzone : zone < ZONES) (hstocked : Stocked state zone supply [])
    (henough : MAX_ORDER ≤ (spareDescriptors state supply).length) (horder : order < MAX_ORDER) :
    ∃ after block, takeOrder state order zone supply = some (after, block) ∧
      Takes state zone order after block := by
  cases htree : state.buddyFreeListZone zone order with
  | nil =>
    rw [takeOrder_of_nil hzone htree]
    exact takeLarger_takes hzone hstocked henough horder htree _ (by omega)
  | cons block rest =>
    have hmem : block ∈ state.buddyFreeListZone zone order := by simp [htree]
    have hnonnull := hstocked.ne_null hmem
    obtain ⟨after, supply', hsplit, hdivided⟩ :=
      splitDown_stocked hzone hstocked htree le_rfl henough
    refine ⟨after, block, ?_, ⟨fun _ ↦ .inl (by simp [htree]), fun _ ↦ hnonnull⟩,
      fun _ ↦ ⟨[], _, supply', hdivided, fun _ ↦ rfl⟩, fun h ↦ absurd h hnonnull⟩
    rw [takeOrder_of_cons hzone htree hnonnull (hstocked.filed order block hmem).order, hsplit]
    rfl

end DionysOS.Memory.Pmm
