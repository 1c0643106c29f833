import Mathlib.Data.BitVec
import Mathlib.Data.List.Range
import Mathlib.Logic.Function.Basic

/-!
# The NVMe driver

`nvme_raw_block` of `nvme.c` cuts a request into commands. The number of blocks of a command is kept
in 16 bits, so it is 0 for a device that takes 2¹⁶ blocks or more, and the loop does not end.

`nvme_create_io_queues` and `nvme_free_queues` go through the slots of the queues up to `total_queues`,
the slot behind the last one. The counters are numbers here, since there is no room for 2³² queues.

The counter of the command identifiers stays at its maximum, and the timeouts are measured with a
counter of 16 bits.
-/

namespace DionysOS.Drivers.Nvme

open Function List Option

abbrev Word := BitVec 64

/-- A shift of an `int`, which has to fit. -/
def shiftInt (value shift : ℕ) : Option ℕ :=
  if shift < 32 ∧ value * 2 ^ shift < 2 ^ 31 then some (value * 2 ^ shift) else none

structure Command where
  slba : Word
  /-- One less than the number of blocks. -/
  length : ℕ
  prp1 : Word
deriving DecidableEq, Repr

/-- The loop of `nvme_raw_block`, where all commands succeed: the commands, and `temp_len` at the
end. -/
def rawBlockLoop (shift : ℕ) :
    ℕ → (totalLbas lbas : ℕ) → (slba tempBuffer tempLen : Word) → Option (List Command × Word)
  | 0, _, _, _, _, _ => none
  | fuel + 1, totalLbas, lbas, slba, tempBuffer, tempLen =>
      if totalLbas = 0 then some ([], tempLen)
      else do
        -- fewer blocks than `lbas` are the last ones
        let lbas := min totalLbas lbas
        let bytes ← shiftInt lbas shift
        let (commands, tempLen) ← rawBlockLoop shift fuel (totalLbas - lbas) lbas
          (slba + BitVec.ofNat 64 lbas) (tempBuffer + BitVec.ofNat 64 bytes)
          (tempLen - BitVec.ofNat 64 bytes)
        some (⟨slba, (lbas + 65535) % 2 ^ 16, tempBuffer⟩ :: commands, tempLen)

/-- `nvme_raw_block`: the commands, and the result. -/
def nvmeRawBlock (maxTransferShift shift : ℕ) (blockNumber : Word) (blockCount : ℕ) (buffer : Word)
    (fuel : ℕ) : Option (List Command × Word) := do
  let lbas ← shiftInt 1 (maxTransferShift - shift)
  let (commands, tempLen) ← rawBlockLoop shift fuel blockCount (lbas % 2 ^ 16) blockNumber buffer
    (BitVec.ofNat 64 blockCount)
  some (commands, BitVec.ofNat 64 blockCount - tempLen)

/-- The commands cover the blocks one after the other, none of them more than `most`, and the buffer
with them. -/
def Covers (shift most : ℕ) : List Command → (block : Word) → (count : ℕ) → (buffer : Word) → Prop
  | [], _, count, _ => count = 0
  | command :: rest, block, count, buffer =>
      command.slba = block ∧ command.prp1 = buffer ∧ command.length + 1 ≤ min count most ∧
        Covers shift most rest (block + BitVec.ofNat 64 (command.length + 1))
          (count - (command.length + 1)) (buffer + BitVec.ofNat 64 ((command.length + 1) * 2 ^ shift))

variable {shift lbas : ℕ}

theorem shiftInt_eq_some {value bytes : ℕ} (hbytes : shiftInt value shift = some bytes) :
    value * 2 ^ shift < 2 ^ 31 ∧ bytes = value * 2 ^ shift := by
  rw [shiftInt] at hbytes
  split at hbytes
  · rename_i hfits
    exact ⟨hfits.2, (some.inj hbytes).symm⟩
  · cases hbytes

theorem shiftInt_of_lt {value : ℕ} (hpos : 0 < value) (hfits : value * 2 ^ shift < 2 ^ 31) :
    shiftInt value shift = some (value * 2 ^ shift) := by
  refine if_pos ⟨?_, hfits⟩
  by_contra hlarge
  have hpow : 2 ^ 32 ≤ 2 ^ shift := Nat.pow_le_pow_right (by decide) (by omega)
  have hle := Nat.le_mul_of_pos_left (2 ^ shift) hpos
  omega

theorem rawBlockLoop_zero (shift : ℕ) {totalLbas : ℕ} (htotal : totalLbas ≠ 0) : ∀ (fuel : ℕ)
    (slba tempBuffer tempLen : Word),
    rawBlockLoop shift fuel totalLbas 0 slba tempBuffer tempLen = none
  | 0, _, _, _ => rfl
  | fuel + 1, slba, tempBuffer, tempLen => by
      simp only [rawBlockLoop, if_neg htotal, Nat.min_zero, Nat.sub_zero]
      cases shiftInt 0 shift with
      | none => rfl
      | some bytes => simp [rawBlockLoop_zero shift htotal fuel]

theorem rawBlockLoop_covers {most : ℕ} : ∀ (fuel : ℕ) {totalLbas lbas : ℕ}
    (slba tempBuffer tempLen : Word), totalLbas < fuel → 0 < lbas → lbas < 2 ^ 16 → lbas ≤ most →
    min totalLbas lbas * 2 ^ shift < 2 ^ 31 →
      ∃ commands last, rawBlockLoop shift fuel totalLbas lbas slba tempBuffer tempLen =
          some (commands, last) ∧ Covers shift most commands slba totalLbas tempBuffer
  | fuel + 1, totalLbas, lbas, slba, tempBuffer, tempLen, hfuel, hpos, hlbas, hmost, hfits => by
      by_cases htotal : totalLbas = 0
      · exact ⟨[], tempLen, if_pos htotal, htotal⟩
      · have hsome : 0 < min totalLbas lbas := by omega
        have hfewer : min (totalLbas - min totalLbas lbas) (min totalLbas lbas) * 2 ^ shift < 2 ^ 31 :=
          (Nat.mul_le_mul_right _ (min_le_right _ _)).trans_lt hfits
        obtain ⟨commands, last, hloop, hcovers⟩ := @rawBlockLoop_covers most fuel
          (totalLbas - min totalLbas lbas) (min totalLbas lbas) (slba + BitVec.ofNat 64 (min totalLbas lbas))
          (tempBuffer + BitVec.ofNat 64 (min totalLbas lbas * 2 ^ shift))
          (tempLen - BitVec.ofNat 64 (min totalLbas lbas * 2 ^ shift))
          (by omega) hsome (by omega) (by omega) hfewer
        have hlen : (min totalLbas lbas + 65535) % 2 ^ 16 + 1 = min totalLbas lbas := by omega
        refine ⟨⟨slba, (min totalLbas lbas + 65535) % 2 ^ 16, tempBuffer⟩ :: commands, last, ?_, ?_⟩
        · simp only [rawBlockLoop, if_neg htotal, shiftInt_of_lt hsome hfits, bind_eq_bind,
            bind_some, hloop]
        · rw [Covers, hlen]
          exact ⟨rfl, rfl, by omega, hcovers⟩

structure Device where
  /-- Whether a slot holds a queue. -/
  queues : ℕ → Bool
  totalQueues : ℕ
  activeQueues : ℕ
  maxQueueId : ℕ

/-- `nvme_alloc_queue` for several identifiers. -/
def allocQueues : ℕ → ℕ → Device → Device
  | 0, _, device => device
  | count + 1, queueId, device =>
      allocQueues count (queueId + 1) { device with
        queues := update device.queues queueId true
        totalQueues := device.totalQueues + 1 }

/-- The second loop of `nvme_create_io_queues`: the queues that are created. `succeeds` says for which
of them `nvme_create_queue` returns 0; otherwise it returns an error. -/
def createLoop (device : Device) (succeeds : ℕ → Bool) : ℕ → ℕ → Option (List ℕ)
  | 0, _ => some []
  | remaining + 1, queueId =>
      if device.queues queueId = false then none
      else if succeeds queueId then
        (createLoop device succeeds remaining (queueId + 1)).map (queueId :: ·)
      else some []

def nvmeCreateIoQueues (succeeds : ℕ → Bool) (device : Device) : Option (Device × List ℕ) :=
  let device := allocQueues (device.maxQueueId + 1 - device.totalQueues) device.totalQueues device
  (createLoop device succeeds (device.totalQueues + 1 - device.activeQueues) device.activeQueues).map
    fun created ↦ ({ device with activeQueues := device.activeQueues + created.length }, created)

/-- The loop of `nvme_free_queues`. -/
def freeLoop : ℕ → ℕ → Device → Option (Device × List ℕ)
  | 0, _, device => some (device, [])
  | remaining + 1, queueId, device =>
      if device.queues queueId = false then none
      else do
        let (device, freed) ← freeLoop remaining (queueId - 1) { device with
          totalQueues := device.totalQueues - 1
          queues := update device.queues queueId false }
        some (device, queueId :: freed)

def nvmeFreeQueues (device : Device) (lowest : ℕ) : Option (Device × List ℕ) :=
  freeLoop (device.totalQueues + 1 - lowest) device.totalQueues device

def WellCounted (device : Device) : Prop :=
  ∀ queueId, device.queues queueId = true ↔ queueId < device.totalQueues

def CreatesQueues (before : Device) (outcome : Option (Device × List ℕ)) : Prop :=
  ∃ after created, outcome = some (after, created) ∧ WellCounted after ∧ created.Nodup ∧
    ∀ queueId, queueId ∈ created ↔ before.activeQueues ≤ queueId ∧ after.queues queueId = true

def FreesQueues (before : Device) (lowest : ℕ) (outcome : Option (Device × List ℕ)) : Prop :=
  ∃ after freed, outcome = some (after, freed) ∧ WellCounted after ∧ freed.Nodup ∧
    ∀ queueId, queueId ∈ freed ↔ lowest ≤ queueId ∧ before.queues queueId = true

variable {device dev : Device}

theorem allocQueues_spec : ∀ (count : ℕ) {dev : Device}, WellCounted dev →
    WellCounted (allocQueues count dev.totalQueues dev) ∧
      (allocQueues count dev.totalQueues dev).totalQueues = dev.totalQueues + count ∧
      (allocQueues count dev.totalQueues dev).activeQueues = dev.activeQueues
  | 0, _, hcounted => ⟨hcounted, rfl, rfl⟩
  | count + 1, dev, hcounted => by
      have hnext : WellCounted { dev with
          queues := update dev.queues dev.totalQueues true
          totalQueues := dev.totalQueues + 1 } := by
        intro queueId
        have hold := hcounted queueId
        by_cases hnew : queueId = dev.totalQueues
        · simp [hnew]
        · simp only [update_of_ne hnew, hold]
          omega
      obtain ⟨hcounted', htotal, hactive⟩ := allocQueues_spec count hnext
      exact ⟨hcounted', htotal.trans (by simp only; omega), hactive⟩

theorem exists_notMem_createLoop (hcounted : WellCounted dev) {succeeds : ℕ → Bool} :
    ∀ {remaining queueId : ℕ} {created : List ℕ}, queueId + remaining = dev.totalQueues →
      createLoop dev succeeds (remaining + 1) queueId = some created →
      ∃ missing, queueId ≤ missing ∧ missing < dev.totalQueues ∧ missing ∉ created
  | remaining, queueId, created, hslots, hloop => by
      rw [createLoop] at hloop
      obtain ⟨hqueue, hloop⟩ := ite_none_left_eq_some.mp hloop
      have hlt := (hcounted queueId).mp (by simpa using hqueue)
      split at hloop
      · obtain ⟨rest, hrest, rfl⟩ := map_eq_some_iff.mp hloop
        obtain ⟨remaining, rfl⟩ : ∃ fewer, remaining = fewer + 1 := ⟨remaining - 1, by omega⟩
        obtain ⟨missing, hle, hmissing, hnotMem⟩ :=
          exists_notMem_createLoop hcounted (by omega) hrest
        refine ⟨missing, by omega, hmissing, ?_⟩
        rw [mem_cons, not_or]
        exact ⟨by omega, hnotMem⟩
      · cases hloop
        exact ⟨queueId, le_rfl, hlt, not_mem_nil⟩

theorem createsQueues_iff (hcounted : WellCounted dev) (succeeds : ℕ → Bool) :
    CreatesQueues dev (nvmeCreateIoQueues succeeds dev) ↔
      max dev.totalQueues (dev.maxQueueId + 1) < dev.activeQueues := by
  obtain ⟨hcounted', htotal, hactive⟩ :=
    allocQueues_spec (dev.maxQueueId + 1 - dev.totalQueues) hcounted
  set allocated := allocQueues (dev.maxQueueId + 1 - dev.totalQueues) dev.totalQueues dev
    with halloc
  have hmax : max dev.totalQueues (dev.maxQueueId + 1) = allocated.totalQueues := by omega
  simp only [CreatesQueues, nvmeCreateIoQueues, ← halloc, hmax, hactive]
  constructor
  · rintro ⟨after, created, hrun, -, -, hcreated⟩
    obtain ⟨_, hloop, hafter⟩ := map_eq_some_iff.mp hrun
    cases hafter
    by_contra hslots
    rw [show allocated.totalQueues + 1 - dev.activeQueues =
      allocated.totalQueues - dev.activeQueues + 1 by omega] at hloop
    obtain ⟨missing, hle, hmissing, hnotMem⟩ :=
      exists_notMem_createLoop hcounted' (by omega) hloop
    exact hnotMem ((hcreated missing).mpr ⟨hle, (hcounted' missing).mpr hmissing⟩)
  · intro hnone
    rw [show allocated.totalQueues + 1 - dev.activeQueues = 0 by omega]
    refine ⟨{ allocated with activeQueues := dev.activeQueues }, [], rfl, hcounted', nodup_nil,
      fun queueId ↦ ?_⟩
    have hslot := hcounted' queueId
    simp only [not_mem_nil, false_iff, hslot]
    omega

theorem freesQueues_iff (hcounted : WellCounted dev) (lowest : ℕ) :
    FreesQueues dev lowest (nvmeFreeQueues dev lowest) ↔ dev.totalQueues < lowest := by
  rw [nvmeFreeQueues]
  constructor
  · rintro ⟨after, freed, hrun, -⟩
    by_contra hle
    -- the slot behind the last queue is the first
    have hempty : dev.queues dev.totalQueues = false := by
      rw [← Bool.not_eq_true, hcounted]
      exact lt_irrefl _
    rw [show dev.totalQueues + 1 - lowest = dev.totalQueues - lowest + 1 by omega, freeLoop,
      if_pos hempty] at hrun
    cases hrun
  · intro hlt
    rw [show dev.totalQueues + 1 - lowest = 0 by omega]
    refine ⟨dev, [], rfl, hcounted, nodup_nil, fun queueId ↦ ?_⟩
    simp only [not_mem_nil, false_iff, hcounted queueId]
    omega

/-- **The books of the queues** are kept exactly if the loops go through no slot. -/
theorem queues_kept_iff (hcounted : WellCounted device) :
    (∀ succeeds, CreatesQueues device (nvmeCreateIoQueues succeeds device) ↔
        max device.totalQueues (device.maxQueueId + 1) < device.activeQueues) ∧
      ∀ lowest, FreesQueues device lowest (nvmeFreeQueues device lowest) ↔
        device.totalQueues < lowest :=
  ⟨createsQueues_iff hcounted, freesQueues_iff hcounted⟩

/-- A device with its administration queue. -/
def adminOnly : Device := ⟨fun queueId ↦ decide (queueId < 1), 1, 1, 1⟩

theorem queues_kept_adminOnly :
    FreesQueues adminOnly 2 (nvmeFreeQueues adminOnly 2) :=
  ((queues_kept_iff fun queueId ↦ by simp [adminOnly]).2 2).mpr (by decide)

/-- The I/O queue is created, and then the slot behind it is used; freeing begins there. -/
theorem queues_not_kept : nvmeCreateIoQueues (fun _ ↦ true) adminOnly = none ∧
    nvmeFreeQueues adminOnly 1 = none :=
  ⟨by rfl, by rfl⟩

def USHRT_MAX : ℕ := 65535

/-- `nvme_get_command_id`: the identifier, and the static `command_id` behind the call. -/
def nvmeGetCommandId (commandId : ℕ) : ℕ × ℕ :=
  if commandId < USHRT_MAX then (commandId, commandId + 1) else (0, commandId)

/-- The static `command_id` after a number of calls. -/
def commandIdAfter : ℕ → ℕ
  | 0 => 0
  | calls + 1 => (nvmeGetCommandId (commandIdAfter calls)).2

/-- What the call after a number of calls returns. -/
def issuedId (calls : ℕ) : ℕ := (nvmeGetCommandId (commandIdAfter calls)).1

theorem commandIdAfter_eq (calls : ℕ) : commandIdAfter calls = min calls USHRT_MAX := by
  induction calls with
  | zero => rfl
  | succ calls ih =>
    rw [commandIdAfter, ih, nvmeGetCommandId]
    split <;> grind

theorem issuedId_eq (calls : ℕ) : issuedId calls = if calls < USHRT_MAX then calls else 0 := by
  rw [issuedId, commandIdAfter_eq, nvmeGetCommandId]
  split <;> grind

/-- **Command identifiers** are distinct in the first two windows only: the counter stays at its
maximum, where every call returns 0. -/
theorem issuedId_distinct_iff (start : ℕ) :
    (∀ i j, start ≤ i → i < j → j < start + USHRT_MAX → issuedId i ≠ issuedId j) ↔ start ≤ 1 := by
  have hmax : USHRT_MAX = 65535 := rfl
  simp only [issuedId_eq]
  constructor
  · intro hdist
    by_contra hlate
    refine hdist (max start USHRT_MAX) (max start USHRT_MAX + 1) (by omega) (by omega) (by omega) ?_
    rw [if_neg (by omega), if_neg (by omega)]
  · intro hstart i j hi hij hj
    split <;> split <;> omega

theorem issuedId_not_distinct : issuedId 65535 = issuedId 65536 := by
  rw [issuedId_eq, issuedId_eq]
  rfl

def timerGetCurrentCount (timerTicks : ℕ) : ℕ := timerTicks % 2 ^ 16

inductive Poll where
  | done
  | failed
  | timeout
  | again
deriving DecidableEq, Repr

/-- A round of the loop of `nvme_submit_sync_command`. The difference is one of `uint64_t`. -/
def completionPoll (status phase timeout startTime timerTicks : ℕ) : Poll :=
  if status % 2 = phase then .done
  else if 0 < timeout ∧ (timeout : ℤ) ≤ (timerGetCurrentCount timerTicks - startTime : ℤ) % 2 ^ 64 then
    .timeout
  else .again

def NVME_CAP_TIMEOUT (capabilities : ℕ) : ℕ := capabilities / 2 ^ 24 % 2 ^ 8

/-- A round of the loop of `nvme_wait_ready`. The difference is one of `int64_t`. -/
def readyPoll (capabilities : ℕ) (enabled : Bool) (controllerStatus start timerTicks : ℕ) : Poll :=
  if (timerGetCurrentCount timerTicks - start : ℤ) < NVME_CAP_TIMEOUT capabilities * 500 then
    if controllerStatus % 2 = enabled.toNat then .done
    else if controllerStatus / 2 % 2 = 1 then .failed
    else .again
  else .timeout

/-- **Timeouts measure the elapsed ticks** only as far as the counter of 16 bits does. -/
theorem polls_exact_iff (ticks elapsed : ℕ) :
    (∀ status phase timeout, status % 2 ≠ phase → 0 < timeout → timeout < 2 ^ 64 →
      ((completionPoll status phase timeout (timerGetCurrentCount ticks) (ticks + elapsed) = .timeout ↔
          timeout ≤ elapsed) ↔
        if ticks % 2 ^ 16 + elapsed % 2 ^ 16 < 2 ^ 16 then
          timeout ≤ elapsed → timeout ≤ elapsed % 2 ^ 16
        else timeout + 2 ^ 16 ≤ 2 ^ 64 + elapsed % 2 ^ 16 ↔ timeout ≤ elapsed)) ∧
    ∀ capabilities enabled controllerStatus,
      ((readyPoll capabilities enabled controllerStatus (timerGetCurrentCount ticks)
            (ticks + elapsed) = .timeout ↔ NVME_CAP_TIMEOUT capabilities * 500 ≤ elapsed) ↔
        if ticks % 2 ^ 16 + elapsed % 2 ^ 16 < 2 ^ 16 then
          NVME_CAP_TIMEOUT capabilities * 500 ≤ elapsed →
            NVME_CAP_TIMEOUT capabilities * 500 ≤ elapsed % 2 ^ 16
        else elapsed < NVME_CAP_TIMEOUT capabilities * 500) := by
  constructor
  · intro status phase timeout hphase hpos hbound
    have hpoll : completionPoll status phase timeout (timerGetCurrentCount ticks) (ticks + elapsed) =
        .timeout ↔ (timeout : ℤ) ≤
          (timerGetCurrentCount (ticks + elapsed) - timerGetCurrentCount ticks : ℤ) % 2 ^ 64 := by
      simp [completionPoll, hphase, hpos]
    rw [hpoll, timerGetCurrentCount, timerGetCurrentCount]
    split <;> omega
  · intro capabilities enabled controllerStatus
    have hpoll : readyPoll capabilities enabled controllerStatus (timerGetCurrentCount ticks)
        (ticks + elapsed) = .timeout ↔ ¬(timerGetCurrentCount (ticks + elapsed) -
          timerGetCurrentCount ticks : ℤ) < NVME_CAP_TIMEOUT capabilities * 500 := by
      grind [readyPoll]
    rw [hpoll, timerGetCurrentCount, timerGetCurrentCount]
    split <;> omega

theorem polls_exact_start : completionPoll 0 1 10 (timerGetCurrentCount 7) (7 + 12) = .timeout :=
  (((polls_exact_iff 7 12).1 0 1 10 (by decide) (by decide) (by decide)).mpr (by decide)).mpr (by decide)

/-- One tick after the counter is back at 0, the first poll gives up and the second does not. -/
theorem polls_not_exact :
    completionPoll 0 1 10 (timerGetCurrentCount 65535) (65535 + 1) = .timeout ∧
      readyPoll 0x1000000 true 0 (timerGetCurrentCount 65535) (65535 + 600) = .again := by
  decide

end DionysOS.Drivers.Nvme
