import DionysOS.Memory.PmmBooks

/-!
# Conservation of pages

The pages of a zone are those of the blocks in its tree and those of the outstanding allocations:
a call moves pages between the two.

The code does not keep this up. `buddy_coalesce` files a block that it cannot merge only if the
block has no successor or is of the maximal order; in the other cases the block is in no tree
afterwards. `run_conserved` says that this is the only way to lose a page, next to a search that
passes over a block at address zero, a stale tail of a hash bucket, and a merge with a block that is
not adjacent.
-/

namespace DionysOS.Memory.Pmm

open DataStructures List Option SinglyLinkedList Prod
open Foundation.PartialMachine

def zonePages (state : State) (zone : ℕ) : List ℕ :=
  chainPages state.blocks (filedBlocks state zone)

/-- The pages of an allocation, which is rounded up to a whole block. -/
def Outstanding.pageNumbers (allocation : Outstanding) : List ℕ :=
  List.range' (allocation.address / PAGE_SIZE) (roundedPages allocation.pages)

/-- The filed pages of a zone and the pages of its outstanding allocations are the pages that were
filed for the zone in `initial`. -/
def Conserved (initial : State) (machine : Machine) : Prop :=
  ∀ zone < ZONES, zonePages machine.state zone ++
      (machine.outstanding.filter (·.zone == zone)).flatMap Outstanding.pageNumbers ~
    zonePages initial zone

/-- The request rounds up to at most half a block of the maximal order. -/
def SmallRequest : Operation → Prop
  | .alloc pages _ _ => pages ≤ 2 ^ (MAX_ORDER - 1)
  | .dealloc _ => True

/-- The condition under which a call loses no page. An allocation finds a block, and not one at
address zero; a release files its block, or merges it with an adjacent one. -/
def LosesNothing (machine : Machine) : Operation → Prop
  | .alloc pages zone _ => ∀ order ∈ requestOrder pages, FindsBlock machine.state zone order
  | .dealloc address => Refiled machine.state address ∧
      Releasable (fun _ _ ↦ True) machine.state address

instance : DecidablePred SmallRequest
  | .alloc pages _ _ => inferInstanceAs (Decidable (pages ≤ 2 ^ (MAX_ORDER - 1)))
  | .dealloc _ => instDecidableTrue

instance (machine : Machine) : DecidablePred (LosesNothing machine)
  | .alloc pages _ _ => inferInstanceAs (Decidable (∀ order ∈ requestOrder pages, _))
  | .dealloc _ => instDecidableAnd

variable {small : List (Outstanding × Ptr)}

section Pages

variable {fits : ℕ → ℕ → Prop} {pages : List (ℕ × ℕ)} {pool : List Ptr} {state : State}
  {others : List Ptr} {zone : ℕ}

def ofZone (zone : ℕ) (pages : List (ℕ × ℕ)) : List ℕ :=
  (pages.filter (·.1 == zone)).map Prod.snd

theorem ofZone_append (zone : ℕ) (first second : List (ℕ × ℕ)) :
    ofZone zone (first ++ second) = ofZone zone first ++ ofZone zone second := by
  simp [ofZone]

theorem ofZone_zonedPages (zone : ℕ) (header : BuddyBlock) : ofZone zone (zonedPages header) =
    if header.zone = zone then blockPages header else [] := by
  by_cases hzone : header.zone = zone
  · have hall : (zonedPages header).filter (·.1 == zone) = zonedPages header := by
      apply filter_eq_self.mpr
      intro page hpage
      obtain ⟨num, -, rfl⟩ := mem_map.mp hpage
      simpa using hzone
    rw [ofZone, hall, map_snd_zonedPages, if_pos hzone]
  · have hnone : (zonedPages header).filter (·.1 == zone) = [] := by
      apply filter_eq_nil_iff.mpr
      intro page hpage
      obtain ⟨num, -, rfl⟩ := mem_map.mp hpage
      simpa using hzone
    rw [ofZone, hnone, if_neg hzone, map_nil]

theorem ofZone_flatMap (zone : ℕ) (blocks : BlockMemory) (chain : List Ptr) :
    ofZone zone (chain.flatMap fun block ↦ zonedPages (blocks block)) =
      chain.flatMap fun block ↦
        if (blocks block).zone = zone then blockPages (blocks block) else [] := by
  rw [ofZone, filter_flatMap, map_flatMap]
  exact flatMap_congr fun block _ ↦ ofZone_zonedPages zone (blocks block)

theorem Accounted.ofZone_filedPages (hacc : Accounted fits pages state others)
    (hzone : zone < ZONES) : ofZone zone (filedPages state) = zonePages state zone := by
  have htree : ∀ tree < ZONES, ofZone zone
      ((filedBlocks state tree).flatMap fun block ↦ zonedPages (state.blocks block)) =
        if tree = zone then zonePages state tree else [] := by
    intro tree htree
    have hfiled : ∀ block ∈ filedBlocks state tree, (state.blocks block).zone = tree := by
      intro block hblock
      obtain ⟨key, -, hmem⟩ := mem_flatMap.mp hblock
      exact (hacc.filed tree htree key block hmem).zone
    rw [ofZone_flatMap]
    split
    · rename_i hsame
      exact flatMap_congr fun block hblock ↦ if_pos ((hfiled block hblock).trans hsame)
    · rename_i hother
      apply flatMap_eq_nil_iff.mpr
      intro block hblock
      exact if_neg fun h ↦ hother ((hfiled block hblock).symm.trans h)
  rw [filedPages, allFiled_eq, flatMap_append, ofZone_append, htree 0 (by decide), htree 1 (by decide)]
  obtain rfl | rfl : zone = 0 ∨ zone = 1 := by
    unfold ZONES at hzone
    omega
  · simp
  · simp

theorem ofZone_small {blocks : BlockMemory} (zone : ℕ) :
    ∀ {small : List (Outstanding × Ptr)},
      (∀ holding ∈ small, SmallHolding holding.1 (blocks holding.2)) →
      ofZone zone ((small.map snd).flatMap fun block ↦ zonedPages (blocks block)) =
        ((small.map fst).filter (·.zone == zone)).flatMap Outstanding.pageNumbers
  | [], _ => rfl
  | holding :: small, hsmall => by
      have hheld := hsmall holding mem_cons_self
      have hpages : blockPages (blocks holding.2) = holding.1.pageNumbers := by
        rw [blockPages, hheld.address, ← hheld.order, Outstanding.pageNumbers]
      have hrest := ofZone_small zone fun other hother ↦ hsmall other (mem_cons_of_mem _ hother)
      rw [map_cons, flatMap_cons, ofZone_append, ofZone_zonedPages, hrest, hheld.zone,
        hpages, map_cons, filter_cons]
      by_cases hzone : holding.1.zone = zone
      · simp [hzone]
      · simp [hzone]

theorem Books.conserved {room : ℕ → ℕ → Prop} {initial : State} {machine : Machine}
    (hinitial : Accounted fits (filedPages initial) initial [])
    (hbooks : Books room (filedPages initial) pool machine small [] []) :
    Conserved initial machine := by
  intro zone hzone
  have houtstanding : machine.outstanding ~ small.map fst := by
    simpa using hbooks.outstanding
  have hpages := (hbooks.accounted.pages.filter (·.1 == zone)).map snd
  change ofZone zone _ ~ ofZone zone _ at hpages
  simp only [live, flatMap_nil, append_nil, flatMap_append] at hpages
  rw [ofZone_append, ofZone_small zone hbooks.small] at hpages
  let held := ((small.map fst).filter (·.zone == zone)).flatMap Outstanding.pageNumbers
  calc zonePages machine.state zone ++
        (machine.outstanding.filter (·.zone == zone)).flatMap Outstanding.pageNumbers
      ~ zonePages machine.state zone ++ held :=
        ((houtstanding.filter _).flatMap_right _).append_left _
    _ ~ held ++ zonePages machine.state zone := perm_append_comm
    _ = held ++ ofZone zone (filedPages machine.state) := by
        rw [hbooks.accounted.ofZone_filedPages hzone]
    _ ~ ofZone zone (filedPages initial) := hpages
    _ = zonePages initial zone := hinitial.ofZone_filedPages hzone

end Pages

section Runs

variable {pages : List (ℕ × ℕ)} {pool : List Ptr} {machine : Machine}

theorem step_conserves (hnodup : (pages.map snd).Nodup)
    (hbooks : Books (fun _ _ ↦ True) pages pool machine small [] []) {op : Operation}
    (hprom : Promised pool machine op) (hsmall : SmallRequest op)
    (hkeeps : LosesNothing machine op) :
    ∃ after out, step machine op = some (after, out) ∧
      ∃ small', Books (fun _ _ ↦ True) pages pool after small' [] [] := by
  cases op with
  | alloc req zone allocation =>
    obtain ⟨hzone, hprovided⟩ := hprom
    have hrequest : req ≤ 2 ^ MAX_ORDER :=
      le_trans hsmall (Nat.pow_le_pow_right (by decide) (Nat.sub_le ..))
    have hhalving : Halving (Fitting fun _ _ ↦ True) := fun _ _ _ ↦ ⟨trivial, trivial⟩
    have horder := requestOrder_eq_clog hsmall
    have hret := (physAlloc_spec hhalving hzone hbooks.accounted hbooks.tabled
      (fun _ hmem ↦ mem_append_left _ hmem) hprovided hrequest).2 _ horder
      (hkeeps _ horder)
    obtain ⟨⟨after, addr⟩, halloc⟩ := isSome_iff_exists.mp hret
    obtain ⟨order', block, dropped, horder', hdropped, hafter⟩ :=
      hbooks.alloc hhalving hzone hprovided hrequest halloc
    rw [hdropped (hkeeps order' horder')] at hafter
    exact ⟨_, addr, by simp [step, halloc], _, hafter⟩
  | dealloc addr =>
    obtain ⟨hrefiled, hreleasable⟩ := hkeeps
    obtain ⟨after, small', large', lost', hstep, hafter, hnothing⟩ :=
      hbooks.dealloc hnodup hprom hreleasable
    obtain ⟨rfl, rfl⟩ := hnothing hrefiled rfl rfl
    exact ⟨after, 0, hstep, small', hafter⟩

/-- **Conservation.** On every map that `phys_init` accepts, a run of small requests and of
releases of outstanding allocations, none of which loses a page, returns, and the filed pages of
each zone with the pages of its outstanding allocations are the pages that `phys_init` filed. -/
theorem run_conserved {lists : NodeStore} {entries : List MemmapEntry} {initial : State}
    (hready : Ready pool lists) (hmap : WellFormedMap entries)
    (hinit : physInit pool lists entries = some initial) (operations : List Operation)
    (hguarded : Guarded step (fun machine operation ↦ Promised pool machine operation ∧
      SmallRequest operation ∧ LosesNothing machine operation) ⟨initial, []⟩ operations) :
    ∃ final outs, run step ⟨initial, []⟩ operations = some (final, outs) ∧
      Conserved initial final := by
  obtain ⟨hacc, htabled, hnodup⟩ := physInit_spec hready hmap hinit
  have hbooks : Books (fun _ _ ↦ True) (filedPages initial) pool ⟨initial, []⟩ [] [] [] :=
    ⟨.refl _, hacc.mono fun _ _ _ ↦ trivial, htabled, by simp, by simp⟩
  let invariant : Machine → Prop := fun machine ↦
    ∃ small, Books (fun _ _ ↦ True) (filedPages initial) pool machine small [] []
  have hstep : ∀ machine operation, invariant machine → (Promised pool machine operation ∧
      SmallRequest operation ∧ LosesNothing machine operation) →
      ∃ next out, step machine operation = some (next, out) ∧ invariant next := by
    rintro machine operation ⟨small, hbooks⟩ ⟨hprom, hsmall, hkeeps⟩
    exact step_conserves hnodup hbooks hprom hsmall hkeeps
  obtain ⟨final, outs, hfinal, small, hafter⟩ :=
    run_invariant hstep operations ⟨initial, []⟩ ⟨[], hbooks⟩ hguarded
  exact ⟨final, outs, hfinal, hafter.conserved hacc⟩

end Runs

/-- A map with room for one block of the maximal order, from 16 MiB on. -/
def oneBlockMap : List MemmapEntry := [⟨0x1000000, 0x400000, .usable⟩]

theorem isSome_physInit_oneBlockMap :
    (physInit eightNodes bootStore oneBlockMap).isSome = true := by
  decide +kernel

def oneBlockState : State :=
  (physInit eightNodes bootStore oneBlockMap).get isSome_physInit_oneBlockMap

theorem physInit_oneBlockMap :
    physInit eightNodes bootStore oneBlockMap = some oneBlockState :=
  (some_get _).symm

/-- Half of the block is allocated and freed: the halves are merged again. -/
theorem run_conserved_oneBlock :
    ∃ final outs, run step ⟨oneBlockState, []⟩
        [.alloc 512 0 spareAllocation, .dealloc 0x1000000] = some (final, outs) ∧
      Conserved oneBlockState final :=
  run_conserved ready_eightNodes ⟨by decide, by decide⟩ physInit_oneBlockMap _
    (by decide +kernel)

/-- Both halves are allocated and the lower one is freed. -/
def freeBelowUsed : List Operation :=
  [.alloc 512 0 spareAllocation, .alloc 512 0 spareAllocation, .dealloc 0x1000000]

/-- The successor of the freed half is in use, so the half is not merged, and it is not filed
either: half of the pages of the zone are lost. -/
theorem run_not_conserved :
    WellFormedMap oneBlockMap ∧
    physInit eightNodes bootStore oneBlockMap = some oneBlockState ∧
    Guarded step (fun machine operation ↦
        Promised eightNodes machine operation ∧ SmallRequest operation) ⟨oneBlockState, []⟩
      freeBelowUsed ∧
    ∃ final outs, run step ⟨oneBlockState, []⟩ freeBelowUsed = some (final, outs) ∧
      ¬ Conserved oneBlockState final := by
  refine ⟨⟨by decide, by decide⟩, physInit_oneBlockMap, by decide +kernel,
    exists_of_any (fun final _ ↦ (zonePages final.state 0 ++
      (final.outstanding.filter (·.zone == 0)).flatMap Outstanding.pageNumbers).length = 512)
      (by decide +kernel) fun final _ _ hpages hconserved ↦ ?_⟩
  have hinitial : (zonePages oneBlockState 0).length = 1024 := by decide +kernel
  have hlength := (hconserved 0 (by decide)).length_eq
  rw [hpages, hinitial] at hlength
  cases hlength

end DionysOS.Memory.Pmm
