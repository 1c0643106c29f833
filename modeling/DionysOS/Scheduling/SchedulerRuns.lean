import DionysOS.Scheduling.Scheduler

/-!
# Runs of the scheduler

Every call but `sched_wakeup` keeps each process in one place. `sched_wakeup` does so if nothing sleeps
on its channel, and else it loses what does; after a call that found the sleep queue empty it does not
return.
-/

namespace DionysOS.Scheduling.Scheduler

open DataStructures Foundation.PartialMachine List Function State

variable {n : ℕ}

section Calls

variable {state : State n} {population : List Ptr} {cpu : Fin n}
  (hsound : Sound population state) (hnull : NULL ∉ population)

include hsound hnull

theorem lookForProcess_sound (hcontrol : (state.cpus cpu).inScheduler = true) :
    ∃ next, lookForProcess state cpu = some next ∧ Sound population next := by
  rw [lookForProcess, if_pos hcontrol]
  cases hqueue : state.schedGlobalQueue with
  | nil => exact ⟨state, rfl, hsound⟩
  | cons process rest =>
    have hplaces : 0 < places state process := by
      simp only [places, hqueue, count_cons_self]
      omega
    have hprocess : process ≠ NULL := by
      rintro rfl
      exact hnull (hsound.mem_of_places hplaces).1
    simp only [if_neg hprocess]
    refine ⟨_, rfl, hsound.move (fun other ↦ ?_) (fun _ _ _ ↦ rfl) (fun hleft ↦ ?_)⟩
    · simp only [onCpu, hqueue, count_append, count_cons_eq process rest]
      omega
    · exact absurd (hcontrol.symm.trans hleft) (by decide)

theorem schedRun_sound (hcontrol : (state.cpus cpu).inScheduler = true) (now : ℕ) :
    ∃ next, schedRun state cpu now = some next ∧ Sound population next := by
  rw [schedRun, if_pos hcontrol]
  cases hqueue : (state.cpus cpu).localRunQueue with
  | nil =>
    have hpurged : Sound population (purgeDeadProcesses state cpu) := by
      refine hsound.move (fun _ ↦ rfl) (fun _ _ _ ↦ rfl) (fun hleft ↦ ?_)
      exact absurd (hcontrol.symm.trans hleft) (by decide)
    refine lookForProcess_sound hpurged hnull ?_
    simp only [purgeDeadProcesses, setCpu, update_self, hcontrol]
  | cons process rest =>
    have hplaces : 0 < onCpu (state.cpus cpu) process := by
      rw [onCpu_of_scheduler hcontrol, hqueue, count_cons_self]
      exact Nat.succ_pos _
    have hprocess : process ≠ NULL := by
      rintro rfl
      have hle := onCpu_le_places state cpu NULL
      exact hnull (hsound.mem_of_places (by omega)).1
    simp only [if_neg hprocess]
    refine ⟨_, rfl, hsound.move (fun other ↦ ?_) (fun other hother hrunning ↦ ?_) (fun _ ↦ ?_)⟩
    · rw [onCpu_of_scheduler hcontrol, onCpu_of_process rfl, hqueue, count_cons_eq process rest]
      simp only [setProcess]
      omega
    · -- The process is in this CPU's queue, so it does not run elsewhere.
      have hzero := hsound.onCpu_eq_zero hother hplaces
      have hne : (state.cpus other).runningProcess ≠ process := by
        intro h
        rw [onCpu, if_pos ⟨hrunning, h⟩] at hzero
        omega
      simp only [setProcess, update_of_ne hne]
    · simp only [setProcess, update_self]

section

variable (hcontrol : (state.cpus cpu).inScheduler = false)
include hcontrol

theorem requeue_sound {contents : Process n}
    (hhome : contents.currentCpu = (state.processes (state.cpus cpu).runningProcess).currentCpu) :
    ∃ next, requeue state cpu contents = some next ∧ Sound population next := by
  have hprocess : (state.cpus cpu).runningProcess ≠ NULL :=
    fun h ↦ hnull (h ▸ (hsound.mem_of_running hcontrol).1)
  simp only [requeue, if_neg hprocess]
  refine ⟨_, rfl, hsound.move (fun other ↦ ?_) (fun other _ _ ↦ ?_) (fun hleft ↦ ?_)⟩
  · rw [onCpu_of_scheduler rfl, onCpu_of_process hcontrol, count_append]
    rfl
  · simp only [setProcess, update_apply]
    split
    · rename_i hsame
      rw [hhome, hsame]
    · rfl
  · cases hleft

theorem schedYield_sound :
    ∃ next, schedYield state cpu = some next ∧ Sound population next := by
  rw [schedYield, if_neg (by simp [hcontrol])]
  split
  · exact ⟨state, rfl, hsound⟩
  · exact requeue_sound hsound hnull hcontrol rfl

theorem schedPreempt_sound :
    ∃ next, schedPreempt state cpu = some next ∧ Sound population next := by
  rw [schedPreempt, if_neg (by simp [hcontrol])]
  exact requeue_sound hsound hnull hcontrol rfl

theorem schedSleep_sound (channel : Ptr) (now : ℕ) :
    ∃ next, schedSleep state cpu channel now = some next ∧ Sound population next := by
  have hprocess : (state.cpus cpu).runningProcess ≠ NULL :=
    fun h ↦ hnull (h ▸ (hsound.mem_of_running hcontrol).1)
  have hhome := hsound.home cpu hcontrol
  have hgo : ¬((state.cpus cpu).runningProcess = NULL ∨
      (state.processes (state.cpus cpu).runningProcess).currentCpu ≠ cpu) := by
    rw [hhome]
    simpa using hprocess
  rw [schedSleep, if_neg (by simp [hcontrol])]
  simp only [if_neg hgo]
  refine ⟨_, rfl, hsound.move (fun other ↦ ?_) (fun other _ _ ↦ ?_) (fun hleft ↦ ?_)⟩
  · rw [onCpu_of_scheduler rfl, onCpu_of_process hcontrol]
    simp only [setProcess]
    rw [count_cons_eq (state.cpus cpu).runningProcess]
    omega
  · simp only [setProcess, update_apply]
    split
    · rename_i hsame
      rw [hsame]
    · rfl
  · cases hleft

theorem schedExit_sound :
    ∃ next, schedExit state cpu = some next ∧ Sound population next := by
  have hmem := hsound.mem_of_running hcontrol
  have hprocess : (state.cpus cpu).runningProcess ≠ NULL := fun h ↦ hnull (h ▸ hmem.1)
  rw [schedExit, if_neg (by simp [hcontrol])]
  simp only [if_neg hprocess]
  refine ⟨_, rfl, hsound.depart hmem (fun other ↦ ?_) rfl⟩
  rw [onCpu_of_scheduler rfl, onCpu_of_process hcontrol]

end

end Calls

section Wakeup

variable {channel : Ptr}

theorem wakeupLoop_of_none : ∀ {queue : List Ptr} {processes : Ptr → Process n},
    (∀ proc ∈ queue, (processes proc).sleepChannel ≠ channel) →
      wakeupLoop channel queue processes = (queue, processes)
  | [], _, _ => rfl
  | addr :: rest, processes, hother => by
      obtain ⟨hfirst, hrest⟩ := forall_mem_cons.mp hother
      simp only [wakeupLoop, if_neg hfirst, wakeupLoop_of_none hrest]

theorem wakeupLoop_sublist : ∀ (queue : List Ptr) (processes : Ptr → Process n),
    (wakeupLoop channel queue processes).1.Sublist queue
  | [], _ => List.Sublist.slnil
  | addr :: rest, processes => by
      simp only [wakeupLoop]
      split
      · exact (wakeupLoop_sublist rest _).cons _
      · exact (wakeupLoop_sublist rest _).cons_cons _

theorem not_mem_wakeupLoop {process : Ptr} : ∀ {queue : List Ptr} {processes : Ptr → Process n},
    queue.Nodup → process ∈ queue → (processes process).sleepChannel = channel →
      process ∉ (wakeupLoop channel queue processes).1
  | address :: rest, processes, hnodup, hmem, hchannel => by
      obtain ⟨hfirst, hrest⟩ := nodup_cons.mp hnodup
      simp only [wakeupLoop]
      rcases mem_cons.mp hmem with rfl | hlater
      · rw [if_pos hchannel]
        exact fun h ↦ hfirst ((wakeupLoop_sublist rest _).mem h)
      · have hne : process ≠ address := fun h ↦ hfirst (h ▸ hlater)
        split
        · refine not_mem_wakeupLoop hrest hlater ?_
          rw [update_of_ne hne, hchannel]
        · rw [mem_cons, not_or]
          exact ⟨hne, not_mem_wakeupLoop hrest hlater hchannel⟩

variable {state next : State n} {population : List Ptr}

theorem schedWakeup_correct (hsound : Sound population state) (hlock : state.schedSleepLock = false)
    (hother : ∀ proc ∈ state.globalSleepQueue, (state.processes proc).sleepChannel ≠ channel) :
    ∃ next, schedWakeup state channel = some next ∧ Sound population next ∧
      Wakes state next channel := by
  rw [schedWakeup, if_neg (by simp [hlock])]
  split
  · exact ⟨_, rfl, ⟨hsound.places, hsound.home⟩,
      ⟨fun proc hmem h ↦ absurd h (hother proc hmem), fun _ _ ↦ Iff.rfl⟩⟩
  · simp only [wakeupLoop_of_none hother]
    exact ⟨state, rfl, hsound, ⟨fun proc hmem h ↦ absurd h (hother proc hmem), fun _ _ ↦ Iff.rfl⟩⟩

theorem schedWakeup_loses (hsound : Sound population state) {process : Ptr}
    (hmem : process ∈ state.globalSleepQueue)
    (hchannel : (state.processes process).sleepChannel = channel)
    (hcall : schedWakeup state channel = some next) : ¬Sound population next := by
  intro hnext
  have hnodup : state.globalSleepQueue.Nodup := by
    refine nodup_iff_count_le_one.mpr fun other ↦ ?_
    have hone := hsound.places_le other
    simp only [places] at hone
    omega
  have hcount : state.globalSleepQueue.count process = 1 :=
    count_eq_one_of_mem hnodup hmem
  have hbefore : 0 < places state process := by
    simp only [places, hcount]
    omega
  have hexists := hsound.mem_of_places hbefore
  have hone := hsound.places process
  rw [if_pos hexists] at hone
  rw [schedWakeup] at hcall
  split at hcall
  · cases hcall
  · rw [if_neg (ne_nil_of_mem hmem)] at hcall
    simp only [Option.some.injEq] at hcall
    subst hcall
    have hgone := count_eq_zero_of_not_mem
      (not_mem_wakeupLoop hnodup hmem hchannel)
    have hafter := hnext.places process
    rw [if_pos hexists] at hafter
    simp only [places, hgone, hcount] at hafter hone
    omega

end Wakeup

section Runs

variable {state : State n} {population : List Ptr} {operation op : Operation n}

theorem correct_of_meets (hnull : NULL ∉ population) (hsound : Sound population state)
    (hmeets : Meets state op) :
    ∃ next, call state op = some next ∧ Correct population state op next := by
  cases op with
  | run cpu now => exact schedRun_sound hsound hnull hmeets now
  | yield cpu => exact schedYield_sound hsound hnull hmeets
  | preempt cpu => exact schedPreempt_sound hsound hnull hmeets
  | sleep cpu channel now => exact schedSleep_sound hsound hnull hmeets channel now
  | wakeup channel => exact schedWakeup_correct hsound hmeets.1 hmeets.2
  | lookForProcess cpu => exact lookForProcess_sound hsound hnull hmeets
  | exit cpu => exact schedExit_sound hsound hnull hmeets

variable {next : State n} {otherwise : Option (State n)}

theorem Correct.sound (hcorrect : Correct population state op next) :
    Sound population next := by
  cases op with
  | wakeup channel => exact hcorrect.1
  | _ => exact hcorrect

theorem of_ite_none {condition : Prop} [Decidable condition]
    (h : (if condition then otherwise else none) = some next) : condition := by
  by_contra hnot
  rw [if_neg hnot] at h
  cases h

theorem of_none_ite {control : Bool}
    (h : (if control = true then none else otherwise) = some next) : control = false := by
  cases control
  · rfl
  · cases h

theorem meets_of_correct (hsound : Sound population state)
    (hcall : call state operation = some next)
    (hcorrect : Correct population state operation next) : Meets state operation := by
  cases operation with
  | run cpu now => exact of_ite_none hcall
  | yield cpu => exact of_none_ite hcall
  | preempt cpu => exact of_none_ite hcall
  | sleep cpu channel now => exact of_none_ite hcall
  | lookForProcess cpu => exact of_ite_none hcall
  | exit cpu => exact of_none_ite hcall
  | wakeup channel =>
    refine ⟨of_none_ite hcall, fun proc hmem hchannel ↦ ?_⟩
    exact schedWakeup_loses hsound hmem hchannel hcall hcorrect.sound

end Runs

/-- Process 1 runs, and process 2 is in the run queue. -/
def twoProcesses : State 1 where
  cpus _ := ⟨[2], 1, [], false⟩
  processes _ := ⟨.ready, NULL, 0, 0, 0, 0⟩
  schedGlobalQueue := []
  globalSleepQueue := []
  schedSleepLock := false
  exited := []

theorem sound_twoProcesses : Sound [1, 2] twoProcesses := by
  refine ⟨fun proc ↦ ?_, fun cpu _ ↦ Subsingleton.elim _ _⟩
  by_cases hone : proc = 1
  · subst hone
    rfl
  · by_cases htwo : proc = 2
    · subst htwo
      rfl
    · have hnot : ¬(proc ∈ [1, 2] ∧ proc ∉ twoProcesses.exited) := by simp [hone, htwo]
      rw [if_neg hnot]
      simp [places, onCpu, twoProcesses, Ne.symm hone, Ne.symm htwo]

end DionysOS.Scheduling.Scheduler
