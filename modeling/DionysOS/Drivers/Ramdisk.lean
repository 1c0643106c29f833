import DionysOS.Foundation.ByteRecords

/-!
# The ramdisk driver

`ramdisk_read`, `ramdisk_write` and the device operations of `ramdisk.c`, for the ramdisk that the id
of the call names. The memory of a ramdisk is `ramdisk_size_pages` pages long. A buffer is a run of
bytes that the caller owns. `none` is an access outside one of the two, or a division by zero.

The checks look at the first block of a transfer only. Sizes are numbers of 64 bits.
-/

namespace DionysOS.Drivers.Block

open Foundation.ByteRecords Function Option

def PAGE_SIZE : ℕ := 4096

/-- The fields of `struct ramdisk` that a transfer reads; `memory` is what lies at
`ramdisk_start`. -/
structure Ramdisk where
  ramdiskSizePages : ℕ
  blockSize : ℕ
  memory : Bytes

structure Buffer where
  length : ℕ
  bytes : Bytes

inductive Status where
  | success
  | offsetOutOfRange
  | readSizeOutOfBounds
  | blockOutOfRange
deriving DecidableEq, Repr

def Ramdisk.length (ramdisk : Ramdisk) : ℕ := ramdisk.ramdiskSizePages * PAGE_SIZE

def ramdiskRead (ramdisk : Ramdisk) (buffer : Buffer) (block offset readSize bufferSize : ℕ) :
    Option (Status × Buffer) :=
  if ramdisk.blockSize < offset then some (.offsetOutOfRange, buffer)
  else if bufferSize < readSize then some (.readSizeOutOfBounds, buffer)
  else if ramdisk.blockSize = 0 then none
  else if ramdisk.length / ramdisk.blockSize < block then some (.blockOutOfRange, buffer)
  else
    let readStart := block * ramdisk.blockSize + offset
    if 0 < readSize ∧ (ramdisk.length < readStart + readSize ∨ buffer.length < readSize) then none
    else some (.success,
      ⟨buffer.length, copy buffer.bytes 0 (fun index ↦ ramdisk.memory (readStart + index)) readSize⟩)

/-- The loop of `ramdisk_write` for a size that is a multiple of the size of the buffer, with a
number of rounds to go. It counts every byte twice, and it goes back to the second byte of the buffer
after the one that follows its last. -/
def writeRepeatedly (readStart bufferSize : ℕ) (buffer : Buffer) :
    ℕ → ℕ → Ramdisk → Option Ramdisk
  | 0, _, ramdisk => some ramdisk
  | rounds + 1, index, ramdisk =>
      if ramdisk.length ≤ readStart + index ∨ buffer.length ≤ index then none
      else
        let memory := Function.update ramdisk.memory (readStart + index) (buffer.bytes index)
        let index := if index = bufferSize then 0 else index
        writeRepeatedly readStart bufferSize buffer rounds (index + 1) { ramdisk with memory := memory }

def ramdiskWrite (ramdisk : Ramdisk) (buffer : Buffer) (block offset writeSize bufferSize : ℕ) :
    Option (Status × Ramdisk) :=
  let readStart := block * ramdisk.blockSize + offset
  if ramdisk.blockSize < offset then some (.offsetOutOfRange, ramdisk)
  else if ramdisk.blockSize = 0 then none
  else if ramdisk.length / ramdisk.blockSize < block then some (.blockOutOfRange, ramdisk)
  else if bufferSize < writeSize ∧ bufferSize = 0 then none
  else if bufferSize < writeSize ∧ writeSize % bufferSize = 0 then
    (writeRepeatedly readStart bufferSize buffer ((writeSize + 1) / 2) 0 ramdisk).map
      fun ramdisk ↦ (.success, ramdisk)
  else if bufferSize < writeSize then some (.readSizeOutOfBounds, ramdisk)
  else if 0 < writeSize ∧ (ramdisk.length < readStart + writeSize ∨ buffer.length < writeSize) then
    none
  else some (.success, { ramdisk with
    memory := copy ramdisk.memory readStart buffer.bytes writeSize })

/-- `struct device` for a ramdisk, with the transfers that it has made: the first block and the number
of blocks of each. -/
structure Device where
  ramdisk : Ramdisk
  transfers : List (ℕ × ℕ)

/-- The size that the operations pass for the buffer, whatever the buffer is. -/
def BUFFER_SIZE : ℕ := PAGE_SIZE * 100

def Device.record (device : Device) (status : Status) (blockNumber blockCount : ℕ) :
    List (ℕ × ℕ) :=
  if status = .success then device.transfers ++ [(blockNumber, blockCount)] else device.transfers

/-- `ramdisk_device_ops_read`. -/
def blockRead (device : Device) (blockNumber blockCount : ℕ) (buffer : Buffer) :
    Option (Status × Buffer × Device) := do
  let (status, buffer) ← ramdiskRead device.ramdisk buffer blockNumber 0
    (blockCount * device.ramdisk.blockSize % 2 ^ 64) BUFFER_SIZE
  some (status, buffer, { device with transfers := device.record status blockNumber blockCount })

/-- `ramdisk_device_ops_write`. -/
def blockWrite (device : Device) (blockNumber blockCount : ℕ) (buffer : Buffer) :
    Option (Status × Device) := do
  let (status, ramdisk) ← ramdiskWrite device.ramdisk buffer blockNumber 0
    (blockCount * device.ramdisk.blockSize % 2 ^ 64) BUFFER_SIZE
  some (status, ⟨ramdisk, device.record status blockNumber blockCount⟩)

variable {device : Device} {buffer : Buffer} {blockNumber blockCount : ℕ}

/-- The blocks of a transfer lie on the ramdisk. -/
structure OnDevice (ramdisk : Ramdisk) (blockNumber blockCount : ℕ) : Prop where
  blockSize_pos : 0 < ramdisk.blockSize
  length_lt : ramdisk.length < 2 ^ 64
  fits : (blockNumber + blockCount) * ramdisk.blockSize ≤ ramdisk.length

def Device.loaded (device : Device) (blockNumber blockCount : ℕ) (buffer : Buffer) : Buffer :=
  ⟨buffer.length, copy buffer.bytes 0
    (fun index ↦ device.ramdisk.memory (blockNumber * device.ramdisk.blockSize + index))
    (blockCount * device.ramdisk.blockSize)⟩

def Device.stored (device : Device) (blockNumber blockCount : ℕ) (buffer : Buffer) : Device :=
  ⟨{ device.ramdisk with
      memory := copy device.ramdisk.memory (blockNumber * device.ramdisk.blockSize) buffer.bytes
        (blockCount * device.ramdisk.blockSize) },
    device.transfers ++ [(blockNumber, blockCount)]⟩

section

variable (hdev : OnDevice device.ramdisk blockNumber blockCount)
include hdev

theorem OnDevice.size_le :
    blockNumber * device.ramdisk.blockSize + blockCount * device.ramdisk.blockSize ≤
      device.ramdisk.length :=
  Nat.add_mul _ _ _ ▸ hdev.fits

theorem OnDevice.size_mod :
    blockCount * device.ramdisk.blockSize % 2 ^ 64 = blockCount * device.ramdisk.blockSize := by
  have hsize := hdev.size_le
  have hlen := hdev.length_lt
  exact Nat.mod_eq_of_lt (by omega)

theorem OnDevice.blockNumber_le :
    ¬device.ramdisk.length / device.ramdisk.blockSize < blockNumber := by
  have hsize := hdev.size_le
  rw [not_lt, Nat.le_div_iff_mul_le hdev.blockSize_pos]
  omega

end

theorem blockRead_of_le (hdev : OnDevice device.ramdisk blockNumber blockCount)
    (hsize : blockCount * device.ramdisk.blockSize ≤ BUFFER_SIZE)
    (hbuf : blockCount * device.ramdisk.blockSize ≤ buffer.length) :
    blockRead device blockNumber blockCount buffer =
      some (.success, device.loaded blockNumber blockCount buffer,
        { device with transfers := device.transfers ++ [(blockNumber, blockCount)] }) := by
  have hfits := hdev.size_le
  rw [blockRead, hdev.size_mod, ramdiskRead, if_neg (by omega), if_neg (by omega),
    if_neg hdev.blockSize_pos.ne', if_neg hdev.blockNumber_le, if_neg (by omega)]
  rfl

variable {buffer' : Buffer} {device' : Device}

theorem le_of_blockRead (hdev : OnDevice device.ramdisk blockNumber blockCount)
    (hread : blockRead device blockNumber blockCount buffer = some (.success, buffer', device')) :
    blockCount * device.ramdisk.blockSize ≤ BUFFER_SIZE ∧
      blockCount * device.ramdisk.blockSize ≤ buffer.length := by
  rw [blockRead, hdev.size_mod, ramdiskRead, if_neg (by omega)] at hread
  split at hread
  · cases hread
  · rw [if_neg hdev.blockSize_pos.ne', if_neg hdev.blockNumber_le] at hread
    by_cases hbuf : buffer.length < blockCount * device.ramdisk.blockSize
    · rw [if_pos ⟨by omega, .inr hbuf⟩] at hread
      cases hread
    · omega

theorem blockWrite_of_le (hdev : OnDevice device.ramdisk blockNumber blockCount)
    (hsize : blockCount * device.ramdisk.blockSize ≤ BUFFER_SIZE)
    (hbuf : blockCount * device.ramdisk.blockSize ≤ buffer.length) :
    blockWrite device blockNumber blockCount buffer =
      some (.success, device.stored blockNumber blockCount buffer) := by
  have hfits := hdev.size_le
  rw [blockWrite, hdev.size_mod, ramdiskWrite]
  rw [if_neg (by omega), if_neg hdev.blockSize_pos.ne', if_neg hdev.blockNumber_le,
    if_neg (by omega), if_neg (by omega), if_neg (by omega), if_neg (by omega)]
  rfl

theorem stored_edit_loaded (device : Device) (transfers : List (ℕ × ℕ)) (blockNumber blockCount : ℕ)
    (buffer : Buffer) (length : ℕ) (edit : ℕ → Byte → Byte) :
    Device.stored { device with transfers := transfers } blockNumber blockCount
        ⟨length, fun place ↦ edit place ((device.loaded blockNumber blockCount buffer).bytes place)⟩ =
      ⟨{ device.ramdisk with
          memory := copy device.ramdisk.memory (blockNumber * device.ramdisk.blockSize)
            (fun place ↦ edit place
              (device.ramdisk.memory (blockNumber * device.ramdisk.blockSize + place)))
            (blockCount * device.ramdisk.blockSize) },
        transfers ++ [(blockNumber, blockCount)]⟩ := by
  simp only [Device.stored]
  congr 2
  refine copy_congr fun place hplace ↦ congrArg (edit place) ?_
  have hinside := @copy_of_inside buffer.bytes
    (fun idx ↦ device.ramdisk.memory (blockNumber * device.ramdisk.blockSize + idx)) 0
    (blockCount * device.ramdisk.blockSize) place hplace
  rwa [zero_add] at hinside

theorem stored_update_loaded (device : Device) (transfers : List (ℕ × ℕ))
    (blockNumber blockCount : ℕ) (buffer : Buffer) (idx length : ℕ) (edit : Byte → Byte) :
    Device.stored { device with transfers := transfers } blockNumber blockCount
        ⟨length, update (device.loaded blockNumber blockCount buffer).bytes idx
          (edit ((device.loaded blockNumber blockCount buffer).bytes idx))⟩ =
      ⟨{ device.ramdisk with
          memory :=
            if idx < blockCount * device.ramdisk.blockSize then
              update device.ramdisk.memory (blockNumber * device.ramdisk.blockSize + idx)
                (edit (device.ramdisk.memory (blockNumber * device.ramdisk.blockSize + idx)))
            else device.ramdisk.memory }, transfers ++ [(blockNumber, blockCount)]⟩ := by
  have hupdate : ∀ bytes : Bytes, update bytes idx (edit (bytes idx)) =
      fun place ↦ (if place = idx then edit else id) (bytes place) := by
    intro bytes
    funext place
    by_cases hplace : place = idx
    · rw [hplace, update_self, if_pos rfl]
    · rw [update_of_ne hplace, if_neg hplace, id]
  rw [hupdate, stored_edit_loaded device transfers blockNumber blockCount buffer length
    fun place ↦ if place = idx then edit else id]
  dsimp only
  congr 2
  funext pos
  rw [copy]
  split
  · grind
  · grind

theorem transfers_of_blockRead
    (hread : blockRead device blockNumber blockCount buffer = some (.success, buffer', device')) :
    device'.transfers = device.transfers ++ [(blockNumber, blockCount)] := by
  obtain ⟨⟨status, loaded⟩, -, hread⟩ := bind_eq_some_iff.mp hread
  cases hread
  rfl

theorem transfers_of_blockWrite
    (hwrite : blockWrite device blockNumber blockCount buffer = some (.success, device')) :
    device'.transfers = device.transfers ++ [(blockNumber, blockCount)] := by
  obtain ⟨⟨status, stored⟩, -, hwrite⟩ := bind_eq_some_iff.mp hwrite
  cases hwrite
  rfl

/-- The checks refuse a read, or its bytes lie on the ramdisk. -/
def ReadInside (ramdisk : Ramdisk) (block offset readSize bufferSize : ℕ) : Prop :=
  ramdisk.blockSize < offset ∨ bufferSize < readSize ∨ ramdisk.length / ramdisk.blockSize < block ∨
    readSize = 0 ∨ block * ramdisk.blockSize + offset + readSize ≤ ramdisk.length

/-- The same for a write. One that repeats its buffer goes no further than the byte behind it. -/
def WriteInside (ramdisk : Ramdisk) (block offset writeSize bufferSize : ℕ) : Prop :=
  ramdisk.blockSize < offset ∨ ramdisk.length / ramdisk.blockSize < block ∨ writeSize = 0 ∨
    if bufferSize < writeSize then
      writeSize % bufferSize = 0 → block * ramdisk.blockSize + offset +
        min ((writeSize + 1) / 2) (bufferSize + 1) ≤ ramdisk.length
    else block * ramdisk.blockSize + offset + writeSize ≤ ramdisk.length

theorem writeRepeatedly_inside_iff {readStart bufferSize : ℕ} (hbufferSize : 0 < bufferSize)
    (bytes : Bytes) (rounds : ℕ) : ∀ {idx : ℕ} {ramdisk : Ramdisk}, idx ≤ bufferSize →
      ((writeRepeatedly readStart bufferSize ⟨bufferSize + 1, bytes⟩ rounds idx ramdisk).isSome ↔
        rounds = 0 ∨ readStart + min (idx + rounds) (bufferSize + 1) ≤ ramdisk.length) := by
  induction rounds with
  | zero => simp [writeRepeatedly]
  | succ rounds ih =>
    intro idx ramdisk hidx
    rw [writeRepeatedly]
    by_cases houtside : ramdisk.length ≤ readStart + idx ∨ bufferSize + 1 ≤ idx
    · rw [if_pos houtside]
      simp only [isSome_none, Bool.false_eq_true, false_iff]
      omega
    · rw [if_neg houtside, ih (by split <;> omega)]
      change rounds = 0 ∨ _ ≤ ramdisk.length ↔ _
      split <;> omega

/-- **A transfer stays on the ramdisk** exactly if it is refused or its last byte lies there. -/
theorem transfers_inside_iff (hblockSize : device.ramdisk.blockSize ≠ 0) :
    (∀ bytes block offset size bufferSize,
      ((ramdiskRead device.ramdisk ⟨size, bytes⟩ block offset size bufferSize).isSome ↔
          ReadInside device.ramdisk block offset size bufferSize) ∧
        ((size ≠ 0 → 0 < bufferSize) →
          ((ramdiskWrite device.ramdisk ⟨bufferSize + 1, bytes⟩ block offset size bufferSize).isSome ↔
            WriteInside device.ramdisk block offset size bufferSize))) ∧
    ∀ buffer block blockCount,
      (blockRead device block blockCount buffer).isSome = (ramdiskRead device.ramdisk buffer block 0
          (blockCount * device.ramdisk.blockSize % 2 ^ 64) BUFFER_SIZE).isSome ∧
        (blockWrite device block blockCount buffer).isSome = (ramdiskWrite device.ramdisk buffer block 0
          (blockCount * device.ramdisk.blockSize % 2 ^ 64) BUFFER_SIZE).isSome := by
  refine ⟨fun bytes block offset size bufferSize ↦ ⟨?_, fun hbufferSize ↦ ?_⟩, fun _ _ _ ↦ ⟨?_, ?_⟩⟩
  · simp only [ramdiskRead, hblockSize]
    grind [ReadInside]
  · by_cases hsize : size = 0
    · simp only [ramdiskWrite, hblockSize]
      grind [WriteInside]
    have hrepeated := @writeRepeatedly_inside_iff (block * device.ramdisk.blockSize + offset) bufferSize
      (hbufferSize hsize) bytes ((size + 1) / 2) 0 device.ramdisk (Nat.zero_le _)
    simp only [ramdiskWrite, hblockSize, (hbufferSize hsize).ne']
    grind [WriteInside]
  · simp [blockRead, isSome_bind, any_true]
  · simp [blockWrite, isSome_bind, any_true]

/-- A ramdisk of one page and four blocks. -/
def onePage : Device := ⟨⟨1, 1024, fun _ ↦ 0⟩, []⟩

theorem transfers_inside_onePage : (ramdiskRead onePage.ramdisk ⟨9, fun _ ↦ 0⟩ 3 0 9 9).isSome :=
  ((transfers_inside_iff (by decide)).1 _ 3 0 9 9).1.mpr
    (by unfold ReadInside; decide)

/-- The block behind the last is not refused, nor is a write that goes on behind it. -/
theorem transfers_not_inside : ramdiskRead onePage.ramdisk ⟨1, fun _ ↦ 0⟩ 4 0 1 1 = none ∧
    blockWrite onePage 3 2 ⟨BUFFER_SIZE + 1, fun _ ↦ 0⟩ = none := by
  decide

end DionysOS.Drivers.Block
