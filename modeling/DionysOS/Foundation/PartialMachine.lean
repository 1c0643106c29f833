import Mathlib.Algebra.Order.Ring.Nat
import Mathlib.Data.BitVec

/-!
# Runs of machines that may fault

A machine is a step function that returns `none` when the step faults: a null dereference, a
panic, or a loop that is out of fuel. A run threads the state through a list of operations and
collects what each operation returned. `Guarded` says that every operation of a run meets a
condition in the state it is applied to, and `run_refines` turns a simulation of single guarded
steps by a pure step function into a simulation of whole guarded runs.
-/

namespace DionysOS.Foundation.PartialMachine

variable {State Abstract Op Out : Type*}

/-- Thread `state` through `operations`, collecting the outputs. One fault faults the run. -/
def run (step : State → Op → Option (State × Out)) :
    State → List Op → Option (State × List Out)
  | state, [] => some (state, [])
  | state, operation :: operations =>
      match step state operation with
      | none => none
      | some (next, out) =>
          match run step next operations with
          | none => none
          | some (final, outs) => some (final, out :: outs)

/-- The run of a pure step function, which cannot fault. -/
def runPure (step : Abstract → Op → Abstract × Out) : Abstract → List Op → Abstract × List Out
  | state, [] => (state, [])
  | state, operation :: operations =>
      let next := step state operation
      let rest := runPure step next.1 operations
      (rest.1, next.2 :: rest.2)

/-- Every operation of the run meets `guard` in the state the run has reached before it. -/
def Guarded (step : State → Op → Option (State × Out)) (guard : State → Op → Prop) :
    State → List Op → Prop
  | _, [] => True
  | state, operation :: operations =>
      guard state operation ∧
        ∀ next out, step state operation = some (next, out) →
          Guarded step guard next operations

variable {final state : State} {op : Op} {operations ops : List Op} {outs : List Out}
  {step : State → Op → Option (State × Out)} {guard : State → Op → Prop} {abstract : Abstract}

theorem run_cons_of_step {next : State}
    {out : Out} (hstep : step state op = some (next, out))
    (hrun : run step next ops = some (final, outs)) :
    run step state (op :: ops) = some (final, out :: outs) := by
  simp only [run, hstep, hrun]

theorem run_cons_eq_some (hrun : run step state (op :: ops) = some (final, outs)) :
    ∃ next out rest, step state op = some (next, out) ∧
      run step next ops = some (final, rest) ∧ outs = out :: rest := by
  simp only [run] at hrun
  split at hrun
  · cases hrun
  · rename_i next out hstep
    split at hrun
    · cases hrun
    · rename_i reached rest hrest
      cases hrun
      exact ⟨next, out, rest, hstep, hrest, rfl⟩

theorem exists_of_any {result : Option (State × Out)} {Q : State → Out → Prop}
    (P : State → Out → Prop) [∀ final out, Decidable (P final out)]
    (hres : result.any (fun reached ↦ P reached.1 reached.2) = true)
    (himp : ∀ final out, result = some (final, out) → P final out → Q final out) :
    ∃ final out, result = some (final, out) ∧ Q final out := by
  obtain ⟨⟨final, out⟩, hreached, hholds⟩ := (Option.any_eq_true _ _).mp hres
  exact ⟨final, out, hreached, himp final out hreached (of_decide_eq_true hholds)⟩

theorem Guarded.cons
    (hret : (step state op).isSome = true) (hguard : guard state op)
    (hrest : Guarded step guard ((step state op).get hret).1 ops) :
    Guarded step guard state (op :: ops) := by
  refine ⟨hguard, fun next out hstep ↦ ?_⟩
  have hnext : ((step state op).get hret).1 = next := by simp [hstep]
  rwa [hnext] at hrest

/-- A concrete run can be checked for a decidable guard. -/
instance Guarded.decidable {step : State → Op → Option (State × Out)} {guard : State → Op → Prop}
    [∀ state operation, Decidable (guard state operation)] :
    ∀ (operations : List Op) (state : State), Decidable (Guarded step guard state operations)
  | [], _ => isTrue trivial
  | operation :: operations, state =>
      match hstep : step state operation with
      | none => decidable_of_iff (guard state operation) (by simp [Guarded, hstep])
      | some (next, _) =>
          have : Decidable (Guarded step guard next operations) :=
            Guarded.decidable operations next
          decidable_of_iff (guard state operation ∧ Guarded step guard next operations)
            (by simp [Guarded, hstep])

theorem Guarded.always (step : State → Op → Option (State × Out)) :
    ∀ (state : State) (ops : List Op), Guarded step (fun _ _ ↦ True) state ops
  | _, [] => True.intro
  | _, _ :: ops => ⟨True.intro, fun next _ _ ↦ Guarded.always step next ops⟩

/-- **Simulation of runs.** Let `related budget` relate concrete and abstract states from which
`budget` more operations may be taken. If every guarded step returns, returns what the pure step
returns, and moves to related states, then so does every guarded run. -/
theorem run_refines {step : State → Op → Option (State × Out)}
    {pureStep : Abstract → Op → Abstract × Out} {guard : State → Op → Prop}
    {related : ℕ → State → Abstract → Prop}
    (hstep : ∀ budget state abstract op, related (budget + 1) state abstract →
      guard state op → ∃ next, step state op =
          some (next, (pureStep abstract op).2) ∧
        related budget next (pureStep abstract op).1) :
    ∀ (ops : List Op) (budget : ℕ) (state : State) (abstract : Abstract),
      related (ops.length + budget) state abstract →
      Guarded step guard state ops →
      ∃ final, run step state ops = some (final, (runPure pureStep abstract ops).2) ∧
        related budget final (runPure pureStep abstract ops).1
  | [], budget, state, abstract, hrelated, _ => ⟨state, rfl, by simpa [runPure] using hrelated⟩
  | op :: ops, budget, state, abstract, hrelated, hguarded => by
      have hbudget : (op :: ops).length + budget =
          ops.length + budget + 1 := by
        simp only [List.length_cons]
        omega
      rw [hbudget] at hrelated
      obtain ⟨next, hnext, hnextRelated⟩ := hstep _ state abstract op hrelated hguarded.1
      obtain ⟨final, hfinal, hfinalRelated⟩ := run_refines hstep ops budget next _
        hnextRelated (hguarded.2 next _ hnext)
      exact ⟨final, run_cons_of_step hnext hfinal, hfinalRelated⟩

theorem run_simulates {pureStep : Abstract → Op → Abstract × Out}
    {related : State → Abstract → Prop}
    (hstep : ∀ state abstract op, related state abstract → guard state op →
      ∃ next, step state op = some (next, (pureStep abstract op).2) ∧
        related next (pureStep abstract op).1) (ops : List Op)
    (hrelated : related state abstract) (hguarded : Guarded step guard state ops) :
    ∃ final, run step state ops = some (final, (runPure pureStep abstract ops).2) ∧
      related final (runPure pureStep abstract ops).1 :=
  @run_refines _ _ _ _ step pureStep guard (fun _ ↦ related) (fun _ ↦ hstep) ops 0 state
    abstract hrelated hguarded

/-- **Invariants of runs.** An invariant that every guarded step keeps, and under which every
guarded step returns, holds at the end of every guarded run, and the run returns. -/
theorem run_invariant {step : State → Op → Option (State × Out)} {guard : State → Op → Prop}
    {invariant : State → Prop} (hstep : ∀ state op, invariant state → guard state op →
      ∃ next out, step state op = some (next, out) ∧ invariant next) :
    ∀ (ops : List Op) (state : State), invariant state →
      Guarded step guard state ops →
      ∃ final outs, run step state ops = some (final, outs) ∧ invariant final
  | [], state, hinvariant, _ => ⟨state, [], rfl, hinvariant⟩
  | op :: ops, state, hinvariant, hguarded => by
      obtain ⟨next, out, hnext, hnextInvariant⟩ := hstep state op hinvariant hguarded.1
      obtain ⟨final, outs, hfinal, hfinalInvariant⟩ := run_invariant hstep ops next
        hnextInvariant (hguarded.2 next out hnext)
      exact ⟨final, out :: outs, run_cons_of_step hnext hfinal, hfinalInvariant⟩

/-- An invariant that every guarded step keeps if it returns holds at the end of every guarded run
that returns. -/
theorem run_preserves {step : State → Op → Option (State × Out)} {guard : State → Op → Prop}
    {invariant : State → Prop}
    (hstep : ∀ state op next out, invariant state → guard state op →
      step state op = some (next, out) → invariant next) :
    ∀ {ops : List Op} {state final : State} {outs : List Out}, invariant state →
      Guarded step guard state ops → run step state ops = some (final, outs) →
      invariant final
  | [], state, final, outs, hinvariant, _, hrun => by
      cases hrun
      exact hinvariant
  | op :: ops, state, final, outs, hinvariant, hguarded, hrun => by
      obtain ⟨next, out, rest, hnext, hrest, -⟩ := run_cons_eq_some hrun
      exact run_preserves hstep (hstep state op next out hinvariant hguarded.1 hnext)
        (hguarded.2 next out hnext) hrest

/-- What a loop makes of an abstract state that has to fit: a related state, or a fault if it does
not fit. -/
def Yields (related : State → Abstract → Prop) (fits : Abstract → Prop) :
    Option State → Abstract → Prop
  | some state, abstract => related state abstract
  | none, abstract => ¬ fits abstract

section Loops

variable {related : State → Abstract → Prop} {fits : Abstract → Prop}

theorem Yields.exists_of_fits {result : Option State}
    (hyields : Yields related fits result abstract) (hfits : fits abstract) :
    ∃ state, result = some state ∧ related state abstract := by
  cases result with
  | none => exact absurd hfits hyields
  | some state => exact ⟨state, rfl, hyields⟩

theorem Yields.foldlM (step : State → Op → Option State) (next : Abstract → Op → Abstract)
    (hfits : ∀ {abstract op}, fits (next abstract op) → fits abstract)
    (hstep : ∀ {state abstract} op, related state abstract →
      Yields related fits (step state op) (next abstract op)) :
    ∀ (ops : List Op) {state : State} {abstract : Abstract}, related state abstract →
      Yields related fits (ops.foldlM step state) (ops.foldl next abstract)
  | [], _, _, hrelated => hrelated
  | op :: ops, state, abstract, hrelated => by
      have hround := hstep op hrelated
      rw [List.foldlM_cons, List.foldl_cons]
      cases hnext : step state op with
      | none =>
        rw [hnext] at hround
        intro hlast
        refine hround (List.foldlRecOn ops next (motive := fun last ↦ fits last →
          fits (next abstract op)) id ?_ hlast)
        exact fun _ hback _ _ hlater ↦ hback (hfits hlater)
      | some mid =>
        rw [hnext] at hround
        exact Yields.foldlM step next hfits hstep ops hround

end Loops

end DionysOS.Foundation.PartialMachine
