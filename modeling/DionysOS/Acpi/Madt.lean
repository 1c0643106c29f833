import DionysOS.Foundation.ByteRecords
import Mathlib.Logic.Function.Basic

/-!
# The table of interrupt controllers

`madt_init` of `madt.c` walks through the entries of the MADT. Its bound on the offset is one more than
the size of the entries, so the length of one more entry is read behind the table.
-/

namespace DionysOS.Acpi

open Foundation.ByteRecords Function

/-- `sizeof(struct acpi_madt)`. -/
def MADT_SIZE : ℕ := 44

/-- The lists of the entries of the types 0, 1, 2 and 4, which have 32 places. `none` is a write
behind a list. -/
def record (lists : ℕ → List ℕ) (type offset : ℕ) : Option (ℕ → List ℕ) :=
  if type ∈ [0, 1, 2, 4] then
    if (lists type).length < 32 then some (update lists type (lists type ++ [offset])) else none
  else some lists

/-- The loop of `madt_init` for a table with `size` bytes of entries. `none` is a byte read behind
them. -/
def madtLoop (table : Bytes) (size : ℕ) :
    ℕ → (offset : ℕ) → (lists : ℕ → List ℕ) → Option (ℕ → List ℕ)
  | 0, _, _ => none
  | fuel + 1, offset, lists =>
      let len := MADT_SIZE + size
      if (len + 2 ^ 64 - (MADT_SIZE - 1)) % 2 ^ 64 < offset then some lists
      else if size ≤ offset + 1 then none
      else if table (offset + 1) = 0 then some lists
      else do
        let lists ← record lists (table offset).toNat offset
        madtLoop table size fuel (offset + (table (offset + 1)).toNat) lists

/-- The entries from an offset on, each of length 2 at least, fill the table. -/
inductive Fills (table : Bytes) (size : ℕ) : ℕ → Prop
  | done : Fills table size size
  | entry {offset : ℕ} (hlength : 2 ≤ (table (offset + 1)).toNat)
      (hrest : Fills table size (offset + (table (offset + 1)).toNat)) : Fills table size offset

variable {table : Bytes} {size : ℕ}

theorem Fills.le {off : ℕ} (hfills : Fills table size off) : off ≤ size := by
  induction hfills with
  | done => exact le_rfl
  | entry _ _ ih => exact (Nat.le_add_right ..).trans ih

theorem madtLoop_eq_none {off : ℕ} (hsize : MADT_SIZE + size < 2 ^ 32)
    (hfills : Fills table size off) :
    ∀ fuel lists, madtLoop table size fuel off lists = none := by
  have hbound : (MADT_SIZE + size + 2 ^ 64 - (MADT_SIZE - 1)) % 2 ^ 64 = size + 1 := by
    unfold MADT_SIZE at hsize ⊢
    omega
  induction hfills with
  | done =>
    intro fuel lists
    cases fuel with
    | zero => rfl
    | succ fuel => rw [madtLoop, hbound, if_neg (by omega), if_pos (by omega)]
  | @entry off hlen hrest ih =>
    intro fuel lists
    cases fuel with
    | zero => rfl
    | succ fuel =>
      have hle := hrest.le
      have hnonzero : table (off + 1) ≠ 0 := by
        intro hzero
        rw [hzero] at hlen
        cases hlen
      rw [madtLoop, hbound, if_neg (by omega), if_neg (by omega), if_neg hnonzero]
      exact Option.bind_eq_none_iff.mpr fun lists _ ↦ ih fuel lists

/-- **The walk through the table** reads behind it, for every table. -/
theorem madtInit_faults (hsize : MADT_SIZE + size < 2 ^ 32) (hfills : Fills table size 0)
    (lists : ℕ → List ℕ) : ¬∃ fuel after, madtLoop table size fuel 0 lists = some after := by
  rintro ⟨fuel, after, hloop⟩
  rw [madtLoop_eq_none hsize hfills] at hloop
  cases hloop

/-- One local APIC. -/
theorem madtInit_faults_lapic : ¬∃ fuel after,
    madtLoop (fun position ↦ if position = 1 then 8 else 0) 8 fuel 0 (fun _ ↦ []) = some after :=
  madtInit_faults (by decide) (.entry (by decide) .done) _

/-- A table without entries. -/
theorem madtInit_empty_faults :
    ¬∃ fuel after, madtLoop (fun _ ↦ 0) 0 fuel 0 (fun _ ↦ []) = some after := by
  rintro ⟨fuel, after, hloop⟩
  cases fuel <;> cases hloop

end DionysOS.Acpi
