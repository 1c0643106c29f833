import DionysOS.Memory.PmmLarge

/-!
# Safety of allocations

Outstanding allocations do not overlap, and each lies inside one usable range of the memory map.

The code decides whether to merge from the successor pointer, the order, the zone, the status and
one flag of the blocks, and the last block of a range has the first block of the next range as its
successor. So it can merge blocks that are not adjacent, and then hands out memory behind the end
of a range. Large allocations follow the same pointers. `run_safe` says that a run is safe if
merges and chains stay within adjacent blocks of one range.
-/

namespace DionysOS.Memory.Pmm

open DataStructures List SinglyLinkedList Option Prod
open Foundation.PartialMachine

def Outstanding.Covers (allocation : Outstanding) (byte : ℕ) : Prop :=
  allocation.address ≤ byte ∧ byte < allocation.address + allocation.pages * PAGE_SIZE

def Separate (one other : Outstanding) : Prop := ∀ byte, ¬ (one.Covers byte ∧ other.Covers byte)

/-- The outstanding allocations are disjoint, and each lies inside one usable range. -/
structure Safe (entries : List MemmapEntry) (machine : Machine) : Prop where
  disjoint : machine.outstanding.Pairwise Separate
  within : ∀ allocation ∈ machine.outstanding, Within entries allocation.address allocation.pages

/-- The condition under which a call keeps allocations apart. -/
def KeepsApart (entries : List MemmapEntry) (machine : Machine) : Operation → Prop
  | .alloc pages zone _ => 2 ^ MAX_ORDER < pages →
      LargeFits (Within entries) machine.state pages zone
  | .dealloc address => Releasable (Within entries) machine.state address

instance (entries : List MemmapEntry) (machine : Machine) : DecidablePred (KeepsApart entries machine)
  | .alloc .. =>
      have : DecidableRel (Within entries) := fun _ _ ↦ inferInstance
      inferInstanceAs (Decidable (_ → _))
  | .dealloc _ =>
      have : DecidableRel (Within entries) := fun _ _ ↦ inferInstance
      inferInstanceAs (Decidable (Releasable _ _ _))

section Runs

variable {entries : List MemmapEntry} {pages : List (ℕ × ℕ)} {pool : List Ptr} {machine : Machine}
  {small : List (Outstanding × Ptr)} {large : List (Outstanding × List Ptr)} {lost : List Ptr}

theorem Within.mono {start count count' : ℕ} (hwithin : Within entries start count)
    (hle : count' ≤ count) : Within entries start count' := by
  obtain ⟨entry, hentry, hlow, hhigh⟩ := hwithin
  refine ⟨entry, hentry, hlow, le_trans ?_ hhigh⟩
  exact Nat.add_le_add_left (Nat.mul_le_mul_right _ hle) _

theorem Outstanding.Covers.page {alloc : Outstanding} {byte : ℕ}
    (hcovers : alloc.Covers byte) (haligned : PAGE_SIZE ∣ alloc.address) :
    byte / PAGE_SIZE ∈ range' (alloc.address / PAGE_SIZE) alloc.pages := by
  obtain ⟨hlow, hhigh⟩ := hcovers
  obtain ⟨page, hpage⟩ := haligned
  rw [hpage] at hlow hhigh ⊢
  rw [Nat.mul_div_cancel_left _ (by decide), mem_range'_1]
  rw [Nat.mul_comm, ← Nat.add_mul] at hhigh
  exact ⟨(Nat.le_div_iff_mul_le (by decide)).mpr (Nat.mul_comm .. ▸ hlow),
    Nat.div_lt_of_lt_mul (Nat.mul_comm .. ▸ hhigh)⟩

theorem Books.separate {room : ℕ → ℕ → Prop} (hbooks : Books room pages pool machine small large lost)
    (hnodup : (pages.map snd).Nodup) : machine.outstanding.Pairwise Separate := by
  have hholdings : (holdings small large).Pairwise fun holding other ↦
      Separate holding.1 other.1 := by
    refine (hbooks.pairwise hnodup).imp_of_mem fun {holding other} hhold hother hdisj ↦ ?_
    rintro byte ⟨hone, htwo⟩
    obtain ⟨haligned, -, hpages⟩ := hbooks.covers hhold
    obtain ⟨haligned', -, hpages'⟩ := hbooks.covers hother
    exact hdisj (hpages (hone.page haligned)) (hpages' (htwo.page haligned'))
  have hpairwise : (small.map fst ++ large.map fst).Pairwise Separate := by
    rw [← map_fst_holdings]
    exact pairwise_map.mpr hholdings
  exact hpairwise.perm hbooks.outstanding.symm fun hseparate byte hboth ↦
    hseparate byte hboth.symm

theorem Books.room {room : ℕ → ℕ → Prop} (hbooks : Books room pages pool machine small large lost)
    (hmono : ∀ {start count count'}, room start count → count' ≤ count → room start count')
    {alloc : Outstanding} (hallocation : alloc ∈ machine.outstanding) :
    room alloc.address alloc.pages := by
  rcases mem_append.mp (hbooks.outstanding.mem_iff.mp hallocation) with hsmall | hlarge
  · obtain ⟨⟨_, block⟩, hhold, rfl⟩ := mem_map.mp hsmall
    have hheld := hbooks.small _ hhold
    have hsound := hbooks.accounted.sound block (mem_append_left _
      (mem_append_left _ (mem_map_of_mem hhold)))
    exact hheld.address ▸ hmono hsound.fits hheld.enough
  · obtain ⟨holding, hhold, rfl⟩ := mem_map.mp hlarge
    exact (hbooks.large holding hhold).room

theorem Books.safe (hbooks : Books (Within entries) pages pool machine small large lost)
    (hnodup : (pages.map snd).Nodup) : Safe entries machine where
  disjoint := hbooks.separate hnodup
  within _ hallocation := hbooks.room (fun hwithin ↦ hwithin.mono) hallocation

/-- The condition under which a call keeps the books of a kind of room. -/
def KeepsRoom (room : ℕ → ℕ → Prop) (machine : Machine) : Operation → Prop
  | .alloc pages zone _ => 2 ^ MAX_ORDER < pages → LargeFits room machine.state pages zone
  | .dealloc address => Releasable room machine.state address

theorem Books.step {room : ℕ → ℕ → Prop} (hhalving : Halving (Fitting room))
    (hnodup : (pages.map snd).Nodup)
    (hbooks : Books room pages pool machine small large lost) {op : Operation}
    (hprom : Promised pool machine op) (hkeeps : KeepsRoom room machine op)
    {after : Machine} {out : ℕ} (hstep : step machine op = some (after, out)) :
    ∃ small' large' lost', Books room pages pool after small' large' lost' := by
  cases op with
  | alloc req zone allocation =>
    obtain ⟨hzone, hprovided⟩ := hprom
    obtain ⟨⟨state, addr⟩, halloc, hres⟩ := bind_eq_some_iff.mp hstep
    cases hres
    by_cases hlarge : 2 ^ MAX_ORDER < req
    · obtain ⟨chain, hafter⟩ := hbooks.allocLarge hzone hlarge (hkeeps hlarge) halloc
      exact ⟨_, _, _, hafter⟩
    · obtain ⟨order, block, dropped, -, -, hafter⟩ := hbooks.alloc hhalving hzone
        hprovided (not_lt.mp hlarge) halloc
      exact ⟨_, _, _, hafter⟩
  | dealloc addr =>
    obtain ⟨after', small', large', lost', hstep', hafter, -⟩ :=
      hbooks.dealloc hnodup hprom hkeeps
    obtain ⟨rfl, -⟩ := mk.inj (some.inj (hstep'.symm.trans hstep))
    exact ⟨small', large', lost', hafter⟩

end Runs

/-- A map with one range of three blocks, from 16 MiB on. The first two are in the user zone. -/
def threeBlockMap : List MemmapEntry := [⟨0x1000000, 0xC00000, .usable⟩]

theorem isSome_physInit_threeBlockMap :
    (physInit eightNodes bootStore threeBlockMap).isSome = true := by
  decide +kernel

def threeBlockState : State :=
  (physInit eightNodes bootStore threeBlockMap).get isSome_physInit_threeBlockMap

theorem physInit_threeBlockMap :
    physInit eightNodes bootStore threeBlockMap = some threeBlockState :=
  (some_get _).symm

/-- A large allocation in the user zone, and small ones in the kernel zone. -/
def mixedRun : List Operation :=
  [.alloc 2048 1 spareAllocation, .alloc 512 0 spareAllocation, .alloc 3 0 spareAllocation,
    .dealloc 0x1800000, .alloc 100 0 spareAllocation]

/-- Four ranges of one block each, at 16, 32, 48 and 128 MiB. The first three are in the user
zone. -/
def scatteredMap : List MemmapEntry :=
  [⟨0x1000000, 0x400000, .usable⟩, ⟨0x2000000, 0x400000, .usable⟩,
    ⟨0x3000000, 0x400000, .usable⟩, ⟨0x8000000, 0x400000, .usable⟩]

theorem isSome_physInit_scatteredMap :
    (physInit eightNodes bootStore scatteredMap).isSome = true := by
  decide +kernel

def scatteredState : State :=
  (physInit eightNodes bootStore scatteredMap).get isSome_physInit_scatteredMap

/-- The first two blocks are allocated in halves. The lower half of the second one is freed and
left out of the trees, then the upper half of the first one is freed and merged with it. -/
def mergeAcrossRanges : List Operation :=
  [.alloc 512 1 spareAllocation, .alloc 512 1 spareAllocation, .alloc 512 1 spareAllocation,
    .alloc 512 1 spareAllocation, .dealloc 0x2000000, .dealloc 0x1200000,
    .alloc 512 1 spareAllocation, .alloc 512 1 spareAllocation, .alloc 512 1 spareAllocation,
    .alloc 512 1 spareAllocation]

end DionysOS.Memory.Pmm
