import DionysOS.Memory.SlabObjects

/-!
# Objects lost by a slab

A slab that grows forgets the bounds of the regions it had before, and `heap_free_in_slab` drops
every address outside the current bounds without a word. An object that is dropped is on no list
afterwards and never comes back. So a run keeps count of its objects exactly if the slab accepts
each of its frees; `deficit` counts the others.
-/

namespace DionysOS.Memory.Slab

open DataStructures Foundation ByteRecords PartialMachine List
open Pmm (PAGE_SIZE)

variable {entrySize pages self deficit : ℕ} {state : State} {free : List ℕ} {memory memory' : Bytes}

def FreeList (state : State) (free : List ℕ) : Prop :=
  Threaded state.memory state.slab.firstFree free ∧ NULL ∉ free

/-- How many objects have been created for a slab, in all its regions. -/
def objectsCreated (entrySize : ℕ) (regions : List Region) : ℕ :=
  (regions.map fun region ↦ entryCount entrySize region.pages).sum

/-- Every object created is free or handed out. -/
def Conserved (entrySize : ℕ) (state : State) : Prop :=
  ∃ free, FreeList state free ∧
    free.length + state.live.length = objectsCreated entrySize state.regions

/-- The bounds of the slab contain the address that is freed. -/
def Accepts (state : State) : Operation → Prop
  | .free address => state.slab.startAddress ≤ address ∧ address ≤ state.slab.endAddress
  | _ => True

instance (state : State) (operation : Operation) : Decidable (Accepts state operation) :=
  match operation with
  | .free _ => instDecidableAnd
  | .allocate _ | .write _ => instDecidableTrue

theorem length_pool (entrySize : ℕ) (regions : List Region) :
    (pool entrySize regions).length = objectsCreated entrySize regions := by
  simp [pool, objectsCreated, slots, length_flatMap]

/-- The invariant of a slab that has lost `deficit` objects. -/
def Lost (entrySize : ℕ) (state : State) (deficit : ℕ) : Prop :=
  ∃ free, Valid entrySize state free ∧
    free.length + state.live.length + deficit = (pool entrySize state.regions).length

section Steps

variable (hpos : 0 < entrySize) (hmul : WORD ∣ entrySize)

include hpos

theorem Valid.freeList (hvalid : Valid entrySize state free) : FreeList state free := by
  constructor
  · exact hvalid.threaded
  · intro hnull
    exact (hvalid.bounds hpos (mem_append_left _ hnull)).1 rfl

theorem Lost.conserved_iff (hlost : Lost entrySize state deficit) :
    Conserved entrySize state ↔ deficit = 0 := by
  obtain ⟨free, hvalid, hcount⟩ := hlost
  have hlist := hvalid.freeList hpos
  rw [length_pool] at hcount
  constructor
  · intro ⟨other, hother, hbalance⟩
    have hsame : other = free := hother.1.unique hother.2 hlist.1 hlist.2
    rw [hsame] at hbalance
    omega
  · intro hzero
    exact ⟨free, hlist, by omega⟩

include hmul

/-- **Step lemma.** A promised operation loses an object exactly if it is a free that the slab does
not accept. -/
theorem step_lost {op : Operation} {next : State} {out : ℕ}
    (hlost : Lost entrySize state deficit) (hprom : Promised state op)
    (hstep : step self state op = some (next, out)) :
    Lost entrySize next (if Accepts state op then deficit else deficit + 1) := by
  obtain ⟨free, hvalid, hcount⟩ := hlost
  cases op with
  | allocate start =>
    obtain ⟨⟨free', hnext, hgrown⟩, hlive, -⟩ :=
      allocate_spec hpos hmul hvalid hprom hstep
    refine ⟨free', hnext, ?_⟩
    rw [if_pos (show Accepts state (.allocate start) from trivial), hlive, length_cons]
    omega
  | free addr =>
    have hnull := (hvalid.bounds hpos (mem_append_right _ hprom)).1
    have hlive := length_erase_of_mem hprom
    have hlen := length_pos_of_mem hprom
    simp only [step, heapFreeInSlab, if_neg hnull] at hstep
    by_cases haccepts : Accepts state (.free addr)
    · have hbounds := haccepts
      simp only [Accepts] at hbounds
      rw [if_neg (by omega)] at hstep
      cases hstep
      refine ⟨addr :: free, hvalid.push hpos hmul hprom, ?_⟩
      simp only [if_pos haccepts, length_cons, hlive]
      omega
    · have hbounds := haccepts
      simp only [Accepts] at hbounds
      rw [if_pos (by omega)] at hstep
      cases hstep
      refine ⟨free, hvalid.lose addr, ?_⟩
      simp only [if_neg haccepts, hlive]
      omega
  | write bytes =>
    cases hstep
    refine ⟨free, hvalid.write hpos hmul bytes, ?_⟩
    rwa [if_pos (show Accepts state (.write bytes) from trivial)]

/-- **Run lemma.** What is lost stays lost, and a promised run loses nothing more exactly if the
slab accepts each of its frees. -/
theorem run_lost :
    ∀ {operations : List Operation} {state final : State} {outs : List ℕ} {deficit : ℕ},
      Lost entrySize state deficit → Guarded (step self) Promised state operations →
      run (step self) state operations = some (final, outs) →
      ∃ deficit', Lost entrySize final deficit' ∧ deficit ≤ deficit' ∧
        (deficit' = deficit ↔ Guarded (step self) Accepts state operations)
  | [], state, final, outs, deficit, hlost, _, hrun => by
      cases hrun
      exact ⟨deficit, hlost, le_rfl, by simp [Guarded]⟩
  | op :: operations, state, final, outs, deficit, hlost, hguarded, hrun => by
      obtain ⟨next, out, rest, hstep, hrest, -⟩ := run_cons_eq_some hrun
      have hnext := step_lost hpos hmul hlost hguarded.1 hstep
      obtain ⟨deficit', hfinal, hle, hiff⟩ := run_lost hnext (hguarded.2 next out hstep) hrest
      have hcons : Guarded (step self) Accepts state (op :: operations) ↔
          Accepts state op ∧ Guarded (step self) Accepts next operations := by
        simp [Guarded, hstep]
      rw [hcons, ← hiff]
      by_cases haccepts : Accepts state op
      · rw [if_pos haccepts] at hle ⊢
        exact ⟨deficit', hfinal, hle, by simp [haccepts]⟩
      · rw [if_neg haccepts] at hle
        refine ⟨deficit', hfinal, by omega, ?_⟩
        simp only [haccepts, false_and, iff_false]
        omega

theorem conserved_iff_of_run {start : ℕ} (hroom : start + pages * PAGE_SIZE ≤ 2 ^ 64) {slab : Slab}
    (hcreate : heapCreateSlab self entrySize pages start memory = some (memory', slab))
    {operations : List Operation} {final : State} {outs : List ℕ}
    (hguarded : Guarded (step self) Promised (created memory' slab start pages) operations)
    (hrun : run (step self) (created memory' slab start pages) operations = some (final, outs)) :
    Conserved entrySize final ↔
      Guarded (step self) Accepts (created memory' slab start pages) operations := by
  have hvalid := created_valid hpos hmul hroom hcreate
  have hcreated : Lost entrySize (created memory' slab start pages) 0 :=
    ⟨_, hvalid, by simp [created, pool]⟩
  obtain ⟨deficit, hlost, -, hiff⟩ := run_lost hpos hmul hcreated hguarded hrun
  exact (hlost.conserved_iff hpos).trans hiff

end Steps

/-- **Objects are conserved exactly if no free is dropped.** From the creation of a slab on, over
any number of growths, the free list and the objects handed out make up all objects created if and
only if every free in the run names an address in the bounds of the slab. Every promised run
returns if an entry fits into a region of the default size, by which the slab grows. -/
theorem run_conserved_iff (self start : ℕ) (memory : Bytes) (hpositive : 0 < entrySize)
    (hmultiple : WORD ∣ entrySize) (hfits : headerOffset entrySize + entrySize ≤ pages * PAGE_SIZE)
    (hroom : start + pages * PAGE_SIZE ≤ 2 ^ 64) :
    ∃ memory' slab, heapCreateSlab self entrySize pages start memory = some (memory', slab) ∧
      ∀ operations, Guarded (step self) Promised (created memory' slab start pages) operations →
        (∀ final outs, run (step self) (created memory' slab start pages) operations =
            some (final, outs) →
          (Conserved entrySize final ↔
            Guarded (step self) Accepts (created memory' slab start pages) operations)) ∧
        (headerOffset entrySize + entrySize ≤ DEFAULT_SLAB_SIZE_PAGES * PAGE_SIZE →
          ∃ final outs, run (step self) (created memory' slab start pages) operations =
            some (final, outs)) := by
  obtain ⟨memory', slab, hcreate⟩ := exists_heapCreateSlab self start memory hpositive hfits
  refine ⟨memory', slab, hcreate, fun operations hguarded ↦ ⟨fun final outs hrun ↦ ?_,
    fun hdefault ↦ ?_⟩⟩
  · exact conserved_iff_of_run hpositive hmultiple hroom hcreate hguarded hrun
  · exact run_returns hpositive hmultiple (created_valid hpositive hmultiple hroom hcreate)
      hdefault hguarded

/-- A slab of one entry that grows and takes an object of the new region back. -/
theorem run_conserved_grown :
    ∃ memory slab, heapCreateSlab 1 16384 8 65536 (fun _ ↦ 0) = some (memory, slab) ∧
      ∃ final outs, run (step 1) (created memory slab 65536 8)
          [.allocate 0, .allocate 131072, .free 147456] = some (final, outs) ∧
        Conserved 16384 final := by
  obtain ⟨memory, slab, hcreate, hruns⟩ := @run_conserved_iff 16384 8 1 65536 (fun _ ↦ 0)
    (by decide) (by decide) (by decide) (by decide)
  have hslab : heapCreateSlab 1 16384 8 65536 (fun _ ↦ 0) = some (_, _) := rfl
  obtain ⟨rfl, rfl⟩ := Prod.mk.inj (Option.some.inj (hcreate.symm.trans hslab))
  obtain ⟨hiff, hret⟩ := hruns [.allocate 0, .allocate 131072, .free 147456]
    (by decide +kernel)
  obtain ⟨final, outs, hrun⟩ := hret (by decide)
  exact ⟨_, _, hslab, final, outs, hrun, (hiff final outs hrun).mpr (by decide +kernel)⟩

/-- The object of the first region is lost when it is freed after the growth. -/
theorem run_objects_lost :
    ∃ memory slab, heapCreateSlab 1 16384 8 65536 (fun _ ↦ 0) = some (memory, slab) ∧
      Guarded (step 1) Promised (created memory slab 65536 8)
        [.allocate 0, .allocate 131072, .free 81920] ∧
      ∃ final outs, run (step 1) (created memory slab 65536 8)
          [.allocate 0, .allocate 131072, .free 81920] = some (final, outs) ∧
        ¬Conserved 16384 final := by
  have hchecked : ∃ memory slab, heapCreateSlab 1 16384 8 65536 (fun _ ↦ 0) = some (memory, slab) ∧
      Guarded (step 1) Promised (created memory slab 65536 8)
        [.allocate 0, .allocate 131072, .free 81920] ∧
      ¬Guarded (step 1) Accepts (created memory slab 65536 8)
        [.allocate 0, .allocate 131072, .free 81920] :=
    ⟨_, _, rfl, by decide +kernel, by decide +kernel⟩
  obtain ⟨memory, slab, hslab, hguarded, hdropped⟩ := hchecked
  have hvalid := created_valid (by decide) (by decide) (by decide) hslab
  obtain ⟨final, outs, hrun⟩ := run_returns (by decide) (by decide) hvalid (by decide) hguarded
  refine ⟨memory, slab, hslab, hguarded, final, outs, hrun, ?_⟩
  rwa [conserved_iff_of_run (by decide) (by decide) (by decide) hslab hguarded hrun]

end DionysOS.Memory.Slab
