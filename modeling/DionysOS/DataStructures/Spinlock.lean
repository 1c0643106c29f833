import DionysOS.DataStructures.SinglyLinkedList

/-!
# The recursive spinlock

`spinlock.c`, for one lock that several CPUs work on. A caller is a CPU with the process that runs
on it. Each call is one atomic step, and a call that waits for the lock does not return: that is
`none`.

Beside the lock the machine counts, for every caller, the acquires that have returned and have not
been released. `recursion_depth` counts from zero on the way in and is tested after the decrement
on the way out, so a lock that was acquired twice is free after one release. `run_exclusive` says
that this is the only thing that goes wrong.
-/

namespace DionysOS.DataStructures.Concurrency

open Foundation.PartialMachine Function Option

structure Spinlock where
  locked : ℕ
  id : ℕ
  cpu : Ptr
  recursionDepth : ℕ
  holdingProcess : Ptr
deriving DecidableEq, Repr

/-- What `my_cpu` and `current_process` return. -/
structure Caller where
  myCpu : Ptr
  currentProcess : Ptr
  myCpu_ne : myCpu ≠ NULL
deriving DecidableEq

/-- `initlock`; the holding process stays what it was. -/
def initlock (spinlock : Spinlock) (id : ℕ) : Spinlock :=
  { spinlock with id := id, locked := 0, cpu := NULL, recursionDepth := 0 }

/-- `arch_atomic_swap(&spinlock->locked, 1)`, which spins until the lock is free. -/
def archAtomicSwap (spinlock : Spinlock) : Option Spinlock :=
  if spinlock.locked = 0 then some { spinlock with locked := 1 } else none

/-- The test for recursive locking. -/
def holds (spinlock : Spinlock) (caller : Caller) : Prop :=
  spinlock.cpu = caller.myCpu ∧ spinlock.holdingProcess = caller.currentProcess

instance (spinlock : Spinlock) (caller : Caller) : Decidable (holds spinlock caller) :=
  instDecidableAnd

def acquireSpinlock (bsp : Bool) (spinlock : Spinlock) (caller : Caller) : Option Spinlock :=
  if bsp then some spinlock
  else if holds spinlock caller then
    some { spinlock with recursionDepth := (spinlock.recursionDepth + 1) % 2 ^ 64 }
  else do
    let spinlock ← archAtomicSwap spinlock
    some { spinlock with cpu := caller.myCpu, holdingProcess := caller.currentProcess }

def releaseSpinlock (spinlock : Spinlock) : Spinlock :=
  let spinlock :=
    if spinlock.recursionDepth > 0 then
      { spinlock with recursionDepth := spinlock.recursionDepth - 1 }
    else spinlock
  if spinlock.recursionDepth = 0 then
    { spinlock with cpu := NULL, holdingProcess := NULL, locked := 0, recursionDepth := 0 }
  else spinlock

/-- The lock, and how many acquires each caller has not released yet. -/
structure Machine where
  spinlock : Spinlock
  balance : Caller → ℕ

inductive Operation where
  | acquire (caller : Caller)
  | release (caller : Caller)
deriving DecidableEq

/-- One step after bootstrap. Callers release only what they acquired. -/
def step (machine : Machine) : Operation → Option (Machine × Unit)
  | .acquire caller => do
      let spinlock ← acquireSpinlock false machine.spinlock caller
      some (⟨spinlock, update machine.balance caller (machine.balance caller + 1)⟩, ())
  | .release caller =>
      if machine.balance caller = 0 then none
      else
        some (⟨releaseSpinlock machine.spinlock,
          update machine.balance caller (machine.balance caller - 1)⟩, ())

/-- The machine right after `initlock`. -/
def initial (spinlock : Spinlock) (id : ℕ) : Machine := ⟨initlock spinlock id, fun _ ↦ 0⟩

/-- **Mutual exclusion.** A caller with more acquires than releases owns the lock, which is locked,
and nobody else gets it; the lock is free if and only if there is no such caller. -/
structure Exclusive (machine : Machine) : Prop where
  owned : ∀ caller, 0 < machine.balance caller →
    machine.spinlock.locked = 1 ∧ holds machine.spinlock caller ∧
      ∀ other, other ≠ caller → acquireSpinlock false machine.spinlock other = none
  free : machine.spinlock.locked = 0 ↔ ∀ caller, machine.balance caller = 0

/-- The condition on a step: no release at recursion depth one, and no more re-entries than
`recursion_depth` can count. -/
def Fits (machine : Machine) : Operation → Prop
  | .acquire caller => holds machine.spinlock caller → machine.spinlock.recursionDepth + 1 < 2 ^ 64
  | .release _ => machine.spinlock.recursionDepth ≠ 1

instance (machine : Machine) : ∀ operation, Decidable (Fits machine operation)
  | .acquire _ => inferInstanceAs (Decidable (_ → _))
  | .release _ => inferInstanceAs (Decidable (_ ≠ _))

/-- The lock is free, or one caller owns it and the recursion depth counts its re-entries. -/
inductive Sound (machine : Machine) : Prop
  | free (hlocked : machine.spinlock.locked = 0) (hcpu : machine.spinlock.cpu = NULL)
      (hdepth : machine.spinlock.recursionDepth = 0) (hbalance : ∀ caller, machine.balance caller = 0)
  | owned (owner : Caller) (hlocked : machine.spinlock.locked = 1)
      (hholds : holds machine.spinlock owner)
      (hbalance : machine.balance owner = machine.spinlock.recursionDepth + 1)
      (hothers : ∀ other, other ≠ owner → machine.balance other = 0)

section Steps

variable {machine : Machine} {spinlock : Spinlock} {caller owner : Caller}

theorem sound_initial (spinlock : Spinlock) (id : ℕ) : Sound (initial spinlock id) :=
  .free rfl rfl rfl fun _ ↦ rfl

theorem holds_unique (howner : holds spinlock owner) (hcaller : holds spinlock caller) :
    caller = owner := by
  obtain ⟨ownerCpu, ownerProcess, _⟩ := owner
  obtain ⟨callerCpu, callerProcess, _⟩ := caller
  obtain rfl : ownerCpu = callerCpu := howner.1.symm.trans hcaller.1
  obtain rfl : ownerProcess = callerProcess := howner.2.symm.trans hcaller.2
  rfl

theorem not_holds_of_cpu_eq_null (hcpu : spinlock.cpu = NULL) : ¬ holds spinlock caller :=
  fun h ↦ caller.myCpu_ne (h.1.symm.trans hcpu)

theorem acquireSpinlock_of_holds (hholds : holds spinlock caller) :
    acquireSpinlock false spinlock caller =
      some { spinlock with recursionDepth := (spinlock.recursionDepth + 1) % 2 ^ 64 } := by
  rw [acquireSpinlock, if_neg Bool.false_ne_true, if_pos hholds]

theorem acquireSpinlock_of_free (hholds : ¬ holds spinlock caller) (hlocked : spinlock.locked = 0) :
    acquireSpinlock false spinlock caller =
      some { spinlock with
        locked := 1, cpu := caller.myCpu, holdingProcess := caller.currentProcess } := by
  rw [acquireSpinlock, if_neg Bool.false_ne_true, if_neg hholds, archAtomicSwap, if_pos hlocked]
  rfl

theorem acquireSpinlock_of_locked (hholds : ¬ holds spinlock caller) (hlocked : spinlock.locked = 1) :
    acquireSpinlock false spinlock caller = none := by
  rw [acquireSpinlock, if_neg Bool.false_ne_true, if_neg hholds, archAtomicSwap, if_neg (by omega)]
  rfl

theorem releaseSpinlock_of_le_one (hdepth : spinlock.recursionDepth ≤ 1) :
    releaseSpinlock spinlock = { spinlock with
      cpu := NULL, holdingProcess := NULL, locked := 0, recursionDepth := 0 } := by
  unfold releaseSpinlock
  by_cases hzero : spinlock.recursionDepth = 0
  · simp [hzero]
  · have hone : spinlock.recursionDepth = 1 := by omega
    simp [hone]

theorem releaseSpinlock_of_one_lt (hdepth : 1 < spinlock.recursionDepth) :
    releaseSpinlock spinlock = { spinlock with recursionDepth := spinlock.recursionDepth - 1 } := by
  have hpos : spinlock.recursionDepth > 0 := by omega
  have hleft : ¬ spinlock.recursionDepth - 1 = 0 := by omega
  simp [releaseSpinlock, hpos, hleft]

section

variable (hsound : Sound machine)
include hsound

theorem Sound.exclusive : Exclusive machine := by
  cases hsound with
  | free hlocked hcpu hdepth hbalance =>
    refine ⟨fun caller hcaller ↦ ?_, iff_of_true hlocked hbalance⟩
    rw [hbalance caller] at hcaller
    exact absurd hcaller (lt_irrefl 0)
  | owned owner hlocked hholds hbalance hothers =>
    have hpos : 0 < machine.balance owner := by omega
    refine ⟨fun caller hcaller ↦ ?_, ?_⟩
    · obtain rfl : caller = owner := by
        by_contra hne
        rw [hothers caller hne] at hcaller
        exact lt_irrefl 0 hcaller
      exact ⟨hlocked, hholds, fun other hne ↦
        acquireSpinlock_of_locked (fun h ↦ hne (holds_unique hholds h)) hlocked⟩
    · refine iff_of_false (by omega) fun hzero ↦ ?_
      exact absurd (hzero owner) hpos.ne'

theorem Sound.of_balance_ne_zero (hcaller : machine.balance caller ≠ 0) :
    machine.spinlock.locked = 1 ∧ holds machine.spinlock caller ∧
      machine.balance caller = machine.spinlock.recursionDepth + 1 ∧
      ∀ other, other ≠ caller → machine.balance other = 0 := by
  cases hsound with
  | free _ _ _ hbalance => exact absurd (hbalance caller) hcaller
  | owned owner hlocked hholds hbalance hothers =>
    obtain rfl : caller = owner := by
      by_contra hne
      exact hcaller (hothers caller hne)
    exact ⟨hlocked, hholds, hbalance, hothers⟩

variable {next : Machine}

theorem sound_acquire (hfits : Fits machine (.acquire caller))
    (hstep : step machine (.acquire caller) = some (next, ())) : Sound next := by
  simp only [step, bind_eq_bind, bind_eq_some_iff, some.injEq, Prod.mk.injEq, and_true] at hstep
  obtain ⟨spinlock, hacquire, rfl⟩ := hstep
  cases hsound with
  | free hlocked hcpu hdepth hbalance =>
    rw [acquireSpinlock_of_free (not_holds_of_cpu_eq_null hcpu) hlocked] at hacquire
    cases hacquire
    refine .owned caller rfl ⟨rfl, rfl⟩ ?_ fun other hne ↦ ?_
    · simp [hbalance, hdepth]
    · simp [hne, hbalance]
  | owned owner hlocked hholds hbalance hothers =>
    by_cases hcaller : holds machine.spinlock caller
    · obtain rfl := holds_unique hholds hcaller
      have hcount := hfits hcaller
      rw [acquireSpinlock_of_holds hcaller] at hacquire
      cases hacquire
      refine .owned caller hlocked hcaller ?_ fun other hne ↦ ?_
      · rw [Nat.mod_eq_of_lt hcount]
        simp [hbalance]
      · simp [hne, hothers]
    · rw [acquireSpinlock_of_locked hcaller hlocked] at hacquire
      cases hacquire

theorem sound_release (hfits : Fits machine (.release caller))
    (hstep : step machine (.release caller) = some (next, ())) : Sound next := by
  simp only [step] at hstep
  obtain ⟨hcaller, hstep⟩ := ite_none_left_eq_some.mp hstep
  obtain ⟨hlocked, hholds, hbalance, hothers⟩ := hsound.of_balance_ne_zero hcaller
  simp only [some.injEq, Prod.mk.injEq, and_true] at hstep
  subst hstep
  have hne : machine.spinlock.recursionDepth ≠ 1 := hfits
  by_cases hdepth : machine.spinlock.recursionDepth = 0
  · rw [releaseSpinlock_of_le_one (by omega)]
    refine .free rfl rfl rfl fun other ↦ ?_
    by_cases hother : other = caller
    · subst hother
      simp [hbalance, hdepth]
    · simp [hother, hothers]
  · rw [releaseSpinlock_of_one_lt (by omega)]
    refine .owned caller hlocked hholds ?_ fun other hother ↦ ?_
    · simp only [update_self, hbalance]
      omega
    · simp [hother, hothers]

theorem sound_step {op : Operation}
    (hfits : Fits machine op) (hstep : step machine op = some (next, ())) :
    Sound next := by
  cases op with
  | acquire caller => exact sound_acquire hsound hfits hstep
  | release caller => exact sound_release hsound hfits hstep

theorem not_exclusive_release (hdepth : machine.spinlock.recursionDepth = 1)
    (hstep : step machine (.release caller) = some (next, ())) : ¬ Exclusive next := by
  simp only [step] at hstep
  obtain ⟨hcaller, hstep⟩ := ite_none_left_eq_some.mp hstep
  obtain ⟨-, -, hbalance, -⟩ := hsound.of_balance_ne_zero hcaller
  simp only [some.injEq, Prod.mk.injEq, and_true] at hstep
  subst hstep
  intro hexclusive
  rw [releaseSpinlock_of_le_one hdepth.le] at hexclusive
  have hzero := hexclusive.free.mp rfl caller
  simp only [update_self] at hzero
  omega

end

end Steps

/-- **Mutual exclusion over runs.** In every run from a fresh lock in which no release happens at
recursion depth one, the lock is exclusive; the first release at depth one ends that. -/
theorem run_exclusive {spinlock : Spinlock} {id : ℕ} {operations : List Operation} {final : Machine}
    {outs : List Unit} (hfits : Guarded step Fits (initial spinlock id) operations)
    (hrun : run step (initial spinlock id) operations = some (final, outs)) :
    Exclusive final ∧ ∀ caller next, final.spinlock.recursionDepth = 1 →
      step final (.release caller) = some (next, ()) → ¬ Exclusive next := by
  have hsound : Sound final :=
    run_preserves (fun _ _ _ _ hsound hfits hstep ↦ sound_step hsound hfits hstep)
      (sound_initial spinlock id) hfits hrun
  exact ⟨hsound.exclusive, fun caller next hdepth hstep ↦ not_exclusive_release hsound hdepth hstep⟩

def someSpinlock : Spinlock := ⟨1, 0, 0, 3, 16⟩

def firstCaller : Caller := ⟨4096, 16, by decide⟩
def secondCaller : Caller := ⟨8192, 32, by decide⟩

/-- The lock passes from one caller to another. -/
theorem run_exclusive_handover : ∃ final outs,
    run step (initial someSpinlock 7) [.acquire firstCaller, .release firstCaller,
      .acquire secondCaller] = some (final, outs) ∧ Exclusive final := by
  refine exists_of_any (fun _ _ ↦ True) (by decide +kernel) fun final outs hrun _ ↦ ?_
  exact (run_exclusive (by decide +kernel) hrun).1

/-- A caller that acquires the lock twice loses it with the first release: another caller gets it. -/
theorem run_not_exclusive : ∃ final outs,
    run step (initial someSpinlock 7) [.acquire firstCaller, .acquire firstCaller,
      .release firstCaller] = some (final, outs) ∧
      0 < final.balance firstCaller ∧ final.spinlock.locked = 0 ∧
      (acquireSpinlock false final.spinlock secondCaller).isSome = true ∧ ¬ Exclusive final := by
  refine exists_of_any (fun final _ ↦ 0 < final.balance firstCaller ∧ final.spinlock.locked = 0 ∧
    (acquireSpinlock false final.spinlock secondCaller).isSome = true) (by decide +kernel) ?_
  rintro final outs - ⟨hpos, hlocked, hacquire⟩
  refine ⟨hpos, hlocked, hacquire, fun hexclusive ↦ ?_⟩
  exact ne_of_gt hpos (hexclusive.free.mp hlocked firstCaller)

end DionysOS.DataStructures.Concurrency
