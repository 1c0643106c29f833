import DionysOS.DataStructures.SinglyLinkedList
import Mathlib.Algebra.Order.BigOperators.Group.Finset
import Mathlib.Data.Fintype.BigOperators

/-!
# The scheduler

`sched_run`, `sched_yield`, `sched_preempt`, `sched_sleep`, `sched_wakeup`, `look_for_process` and
`sched_exit` of `scheduler.c` in the FIFO build, over any number of CPUs. Queues and lists are
sequences, and a call is one step. `context_switch` moves the control of a CPU between its scheduler
and its running process: a process can call the scheduler only while it has the control, and
`sched_run` and `look_for_process` are called by the scheduler. `none` is a call from the wrong side, a
`NULL` process, or a lock that is never released.

Each call moves processes between the queues and the CPUs, and none loses one, with one exception:
`sched_wakeup` takes the processes of its channel out of the sleep queue and puts them nowhere.
-/

namespace DionysOS.Scheduling.Scheduler

open DataStructures Function List

inductive ProcessState where
  | running
  | sleeping
  | dead
  | debugState
  | ready
deriving DecidableEq, Repr

/-- `struct process`, as far as the scheduler uses it. -/
structure Process (n : ℕ) where
  currentState : ProcessState
  sleepChannel : Ptr
  currentCpu : Fin n
  startTime : ℕ
  ticksTaken : ℕ
  ticksSlept : ℕ
deriving DecidableEq

/-- `struct cpu`, with the list of its dead processes, and whether its scheduler has the control. -/
structure Cpu where
  localRunQueue : List Ptr
  runningProcess : Ptr
  deadProcesses : List Ptr
  inScheduler : Bool
deriving DecidableEq

/-- The scheduler's data. `exited` lists the processes that have called `sched_exit`. -/
structure State (n : ℕ) where
  cpus : Fin n → Cpu
  processes : Ptr → Process n
  schedGlobalQueue : List Ptr
  globalSleepQueue : List Ptr
  schedSleepLock : Bool
  exited : List Ptr

variable {n : ℕ}

/-- A sum of two `uint64_t`. -/
def add64 (a b : ℕ) : ℕ := (a + b) % 2 ^ 64

namespace State

def setCpu (state : State n) (cpu : Fin n) (contents : Cpu) : State n :=
  { state with cpus := update state.cpus cpu contents }

def setProcess (state : State n) (process : Ptr) (contents : Process n) : State n :=
  { state with processes := update state.processes process contents }

end State

def lookForProcess (state : State n) (cpu : Fin n) : Option (State n) :=
  if (state.cpus cpu).inScheduler then
    match state.schedGlobalQueue with
    | [] => some state
    | process :: rest =>
        if process = NULL then none
        else
          some (({ state with schedGlobalQueue := rest }).setCpu cpu
            { state.cpus cpu with localRunQueue := (state.cpus cpu).localRunQueue ++ [process] })
  else none

def purgeDeadProcesses (state : State n) (cpu : Fin n) : State n :=
  state.setCpu cpu { state.cpus cpu with deadProcesses := [] }

/-- `sched_run`; `now` is what `timer_get_current_count` returns. -/
def schedRun (state : State n) (cpu : Fin n) (now : ℕ) : Option (State n) :=
  if (state.cpus cpu).inScheduler then
    match (state.cpus cpu).localRunQueue with
    | [] => lookForProcess (purgeDeadProcesses state cpu) cpu
    | process :: rest =>
        if process = NULL then none
        else
          some ((state.setProcess process { state.processes process with
            currentCpu := cpu, currentState := .running, startTime := now }).setCpu cpu
              { state.cpus cpu with
                localRunQueue := rest, runningProcess := process, inScheduler := false })
  else none

/-- Put the running process into the local run queue and switch to the scheduler. -/
def requeue (state : State n) (cpu : Fin n) (contents : Process n) : Option (State n) :=
  let process := (state.cpus cpu).runningProcess
  if process = NULL then none
  else
    some ((state.setProcess process contents).setCpu cpu { state.cpus cpu with
      localRunQueue := (state.cpus cpu).localRunQueue ++ [process], inScheduler := true })

def schedYield (state : State n) (cpu : Fin n) : Option (State n) :=
  if (state.cpus cpu).inScheduler then none
  else if (state.cpus cpu).localRunQueue = [] then some state
  else
    let process := state.processes (state.cpus cpu).runningProcess
    requeue state cpu { process with currentState := .ready }

def schedPreempt (state : State n) (cpu : Fin n) : Option (State n) :=
  if (state.cpus cpu).inScheduler then none
  else
    let process := state.processes (state.cpus cpu).runningProcess
    requeue state cpu { process with
      ticksTaken := add64 process.ticksTaken process.startTime, startTime := 0
      currentState := .ready }

/-- `sched_sleep`. It switches to the scheduler of the CPU that the process remembers. -/
def schedSleep (state : State n) (cpu : Fin n) (channel : Ptr) (now : ℕ) : Option (State n) :=
  if (state.cpus cpu).inScheduler then none
  else
    let address := (state.cpus cpu).runningProcess
    let process := state.processes address
    if address = NULL ∨ process.currentCpu ≠ cpu then none
    else
      some ((({ state with globalSleepQueue := address :: state.globalSleepQueue }).setProcess address
        { process with
          sleepChannel := channel, currentState := .sleeping
          ticksTaken := add64 process.ticksTaken process.startTime, startTime := now }).setCpu cpu
            { state.cpus cpu with inScheduler := true })

/-- The loop of `sched_wakeup`: what stays in the sleep queue, and the processes afterwards. -/
def wakeupLoop (channel : Ptr) : List Ptr → (Ptr → Process n) → List Ptr × (Ptr → Process n)
  | [], processes => ([], processes)
  | address :: rest, processes =>
      let process := processes address
      if process.sleepChannel = channel then
        wakeupLoop channel rest (update processes address { process with
          sleepChannel := NULL, ticksSlept := add64 process.ticksSlept process.startTime
          startTime := 0 })
      else
        let (kept, processes) := wakeupLoop channel rest processes
        (address :: kept, processes)

/-- `sched_wakeup`. With an empty sleep queue it returns with the lock. -/
def schedWakeup (state : State n) (channel : Ptr) : Option (State n) :=
  if state.schedSleepLock then none
  else if state.globalSleepQueue = [] then some { state with schedSleepLock := true }
  else
    let (kept, processes) := wakeupLoop channel state.globalSleepQueue state.processes
    some { state with globalSleepQueue := kept, processes := processes }

def schedExit (state : State n) (cpu : Fin n) : Option (State n) :=
  if (state.cpus cpu).inScheduler then none
  else
    let process := (state.cpus cpu).runningProcess
    if process = NULL then none
    else
      some (({ state with exited := process :: state.exited }).setCpu cpu { state.cpus cpu with
        deadProcesses := process :: (state.cpus cpu).deadProcesses, runningProcess := NULL
        inScheduler := true })

inductive Operation (n : ℕ) where
  | run (cpu : Fin n) (now : ℕ)
  | yield (cpu : Fin n)
  | preempt (cpu : Fin n)
  | sleep (cpu : Fin n) (channel : Ptr) (now : ℕ)
  | wakeup (channel : Ptr)
  | lookForProcess (cpu : Fin n)
  | exit (cpu : Fin n)
deriving DecidableEq

def call (state : State n) : Operation n → Option (State n)
  | .run cpu now => schedRun state cpu now
  | .yield cpu => schedYield state cpu
  | .preempt cpu => schedPreempt state cpu
  | .sleep cpu channel now => schedSleep state cpu channel now
  | .wakeup channel => schedWakeup state channel
  | .lookForProcess cpu => lookForProcess state cpu
  | .exit cpu => schedExit state cpu

def step (state : State n) (operation : Operation n) : Option (State n × Unit) :=
  (call state operation).map fun next ↦ (next, ())

/-- How often a process is on a CPU: in its run queue, or running. -/
def onCpu (cpu : Cpu) (process : Ptr) : ℕ :=
  cpu.localRunQueue.count process +
    if cpu.inScheduler = false ∧ cpu.runningProcess = process then 1 else 0

def places (state : State n) (process : Ptr) : ℕ :=
  (∑ cpu, onCpu (state.cpus cpu) process) + state.schedGlobalQueue.count process +
    state.globalSleepQueue.count process

/-- Each process of the system is in one place until it exits, and nothing else is anywhere. -/
structure Sound (population : List Ptr) (state : State n) : Prop where
  places : ∀ process, places state process =
    if process ∈ population ∧ process ∉ state.exited then 1 else 0
  /-- A running process knows its CPU. -/
  home : ∀ cpu, (state.cpus cpu).inScheduler = false →
    (state.processes (state.cpus cpu).runningProcess).currentCpu = cpu

def InRunQueue (state : State n) (process : Ptr) : Prop :=
  (∃ cpu, process ∈ (state.cpus cpu).localRunQueue) ∨ process ∈ state.schedGlobalQueue

/-- What `sched_wakeup` promises: it moves the processes that sleep on the channel, and no others,
into a run queue. -/
structure Wakes (before after : State n) (channel : Ptr) : Prop where
  woken : ∀ process ∈ before.globalSleepQueue,
    (before.processes process).sleepChannel = channel → InRunQueue after process
  others : ∀ process, ¬(process ∈ before.globalSleepQueue ∧
    (before.processes process).sleepChannel = channel) →
      (InRunQueue after process ↔ InRunQueue before process)

/-- A call loses no process, and wakes what it should wake. -/
def Correct (population : List Ptr) (before : State n) : Operation n → State n → Prop
  | .wakeup channel, after => Sound population after ∧ Wakes before after channel
  | _, after => Sound population after

/-- The condition on a call: it comes from the side that may make it, and a wakeup finds the lock free
and no process that sleeps on its channel. -/
def Meets (state : State n) : Operation n → Prop
  | .run cpu _ | .lookForProcess cpu => (state.cpus cpu).inScheduler = true
  | .yield cpu | .preempt cpu | .sleep cpu _ _ | .exit cpu => (state.cpus cpu).inScheduler = false
  | .wakeup channel => state.schedSleepLock = false ∧
      ∀ process ∈ state.globalSleepQueue, (state.processes process).sleepChannel ≠ channel

instance (state : State n) : ∀ operation, Decidable (Meets state operation)
  | .run _ _ | .lookForProcess _ | .yield _ | .preempt _ | .sleep _ _ _ | .exit _ =>
      inferInstanceAs (Decidable (_ = _))
  | .wakeup _ => instDecidableAnd

theorem sum_update {α : Type*} (weight : α → ℕ) (f : Fin n → α) (i : Fin n) (value : α) :
    (∑ j, weight (update f i value j)) + weight (f i) = (∑ j, weight (f j)) + weight value := by
  have hcomp : (fun j ↦ weight (update f i value j)) =
      update (fun j ↦ weight (f j)) i (weight value) :=
    funext fun j ↦ apply_update (fun _ ↦ weight) f i value j
  rw [hcomp, Finset.sum_update_of_mem (Finset.mem_univ i),
    Finset.sum_eq_add_sum_sdiff_singleton_of_mem (Finset.mem_univ i) fun j ↦ weight (f j)]
  omega

section Moves

variable {state : State n} {population : List Ptr} {cpu : Fin n} {contents : Cpu}
  {process proc : Ptr}

theorem places_replace (state : State n) (cpu : Fin n) (contents : Cpu) (processes : Ptr → Process n)
    (global sleep : List Ptr) (lock : Bool) (exited : List Ptr) (proc : Ptr) :
    places ⟨update state.cpus cpu contents, processes, global, sleep, lock, exited⟩ proc +
        (onCpu (state.cpus cpu) proc + state.schedGlobalQueue.count proc +
          state.globalSleepQueue.count proc) =
      places state proc + (onCpu contents proc + global.count proc + sleep.count proc) := by
  have hsum := sum_update (onCpu · proc) state.cpus cpu contents
  simp only [places]
  omega

theorem onCpu_le_places (state : State n) (cpu : Fin n) (process : Ptr) :
    onCpu (state.cpus cpu) process ≤ places state process := by
  have hle : onCpu (state.cpus cpu) process ≤ ∑ cpu, onCpu (state.cpus cpu) process :=
    Finset.single_le_sum (f := fun cpu ↦ onCpu (state.cpus cpu) process) (fun _ _ ↦ Nat.zero_le _)
      (Finset.mem_univ cpu)
  simp only [places]
  omega

theorem Sound.places_le (hsound : Sound population state) (proc : Ptr) :
    Scheduler.places state proc ≤ 1 := by
  rw [hsound.places]
  split <;> omega

theorem Sound.mem_of_places (hsound : Sound population state)
    (hplaces : 0 < Scheduler.places state proc) :
    proc ∈ population ∧ proc ∉ state.exited := by
  by_contra hnot
  rw [hsound.places, if_neg hnot] at hplaces
  omega

theorem count_cons_eq (first : Ptr) (rest : List Ptr) (process : Ptr) :
    (first :: rest).count process = [first].count process + rest.count process :=
  @count_append _ _ _ [first] rest

theorem onCpu_of_scheduler (hcontrol : contents.inScheduler = true) (process : Ptr) :
    onCpu contents process = contents.localRunQueue.count process := by
  simp [onCpu, hcontrol]

theorem onCpu_of_process (hcontrol : contents.inScheduler = false) (process : Ptr) :
    onCpu contents process =
      contents.localRunQueue.count process + [contents.runningProcess].count process := by
  simp [onCpu, hcontrol, count_singleton]

section

variable (hsound : Sound population state)
include hsound

theorem Sound.mem_of_running (hcontrol : (state.cpus cpu).inScheduler = false) :
    (state.cpus cpu).runningProcess ∈ population ∧
      (state.cpus cpu).runningProcess ∉ state.exited := by
  refine hsound.mem_of_places ?_
  have hrunning := onCpu_of_process hcontrol (state.cpus cpu).runningProcess
  have hle := onCpu_le_places state cpu (state.cpus cpu).runningProcess
  rw [count_singleton_self] at hrunning
  omega

theorem Sound.onCpu_eq_zero {other : Fin n} (hne : other ≠ cpu)
    (hplaces : 0 < onCpu (state.cpus cpu) process) : onCpu (state.cpus other) process = 0 := by
  have hmoved := places_replace state cpu ⟨[], NULL, [], true⟩ state.processes
    state.schedGlobalQueue state.globalSleepQueue state.schedSleepLock state.exited process
  have hempty : onCpu ⟨[], NULL, [], true⟩ process = 0 := by simp [onCpu]
  have hle := onCpu_le_places (state.setCpu cpu ⟨[], NULL, [], true⟩) other process
  have hsame : (state.setCpu cpu ⟨[], NULL, [], true⟩).cpus other = state.cpus other :=
    update_of_ne hne _ _
  have hone := hsound.places_le process
  rw [hsame, State.setCpu] at hle
  omega

theorem Sound.move {processes : Ptr → Process n} {global sleep : List Ptr} {lock : Bool}
    (hbalance : ∀ proc, onCpu contents proc + global.count proc + sleep.count proc =
      onCpu (state.cpus cpu) proc + state.schedGlobalQueue.count proc +
        state.globalSleepQueue.count proc)
    (hprocesses : ∀ other, other ≠ cpu → (state.cpus other).inScheduler = false →
      (processes (state.cpus other).runningProcess).currentCpu =
        (state.processes (state.cpus other).runningProcess).currentCpu)
    (hhome : contents.inScheduler = false → (processes contents.runningProcess).currentCpu = cpu) :
    Sound population
      ⟨update state.cpus cpu contents, processes, global, sleep, lock, state.exited⟩ := by
  refine ⟨fun proc ↦ ?_, fun other hcontrol ↦ ?_⟩
  · have hplaces := places_replace state cpu contents processes global sleep lock state.exited proc
    have hbalance := hbalance proc
    have hbefore := hsound.places proc
    simp only at hbefore ⊢
    omega
  · by_cases hcpu : other = cpu
    · subst hcpu
      simp only [update_self] at hcontrol ⊢
      exact hhome hcontrol
    · simp only [update_of_ne hcpu] at hcontrol ⊢
      rw [hprocesses other hcpu hcontrol]
      exact hsound.home other hcontrol

theorem Sound.depart
    (hprocess : proc ∈ population ∧ proc ∉ state.exited)
    (hbalance : ∀ other, onCpu contents other + [proc].count other = onCpu (state.cpus cpu) other)
    (hcontrol : contents.inScheduler = true) :
    Sound population ⟨update state.cpus cpu contents, state.processes,
      state.schedGlobalQueue, state.globalSleepQueue, state.schedSleepLock,
      proc :: state.exited⟩ := by
  refine ⟨fun other ↦ ?_, fun other hleft ↦ ?_⟩
  · have hplaces := places_replace state cpu contents state.processes state.schedGlobalQueue
      state.globalSleepQueue state.schedSleepLock (proc :: state.exited) other
    have hbalance := hbalance other
    have hbefore := hsound.places other
    by_cases hsame : other = proc
    · subst hsame
      rw [if_pos hprocess] at hbefore
      rw [count_singleton_self] at hbalance
      rw [if_neg fun h ↦ h.2 mem_cons_self]
      omega
    · rw [count_singleton, if_neg (by simpa using fun h ↦ hsame h.symm)] at hbalance
      simp only [mem_cons, hsame, false_or]
      omega
  · by_cases hcpu : other = cpu
    · subst hcpu
      simp only [update_self] at hleft
      exact absurd (hcontrol.symm.trans hleft) (by decide)
    · simp only [update_of_ne hcpu] at hleft ⊢
      exact hsound.home other hleft

end

end Moves

end DionysOS.Scheduling.Scheduler
