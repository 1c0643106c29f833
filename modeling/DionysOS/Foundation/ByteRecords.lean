import Mathlib.Algebra.Order.Ring.Nat
import Mathlib.Data.BitVec

/-!
# Records and numbers in bytes

A run of bytes is a function of the position. Records of one size lie in it one after the other:
`slot` reads the record with an index, `setSlot` writes it. Numbers are stored with their least
significant byte first; `load` and `store` read and write them at any position. A bitmap is a
function of the bit, and `firstFree` scans it for a clear one.
-/

namespace DionysOS.Foundation.ByteRecords

abbrev Byte := BitVec 8

abbrev Bytes := ℕ → Byte

/-- The byte with an index of a number, the least significant one first. -/
def byte (value index : ℕ) : Byte := BitVec.ofNat 8 (value / 256 ^ index)

/-- The number in `width` bytes. -/
def load (bytes : Bytes) : ℕ → ℕ → ℕ
  | 0, _ => 0
  | width + 1, offset => (bytes offset).toNat + 256 * load bytes width (offset + 1)

theorem load_eq_mod {bytes : Bytes} :
    ∀ {width off value : ℕ}, (∀ idx < width, bytes (off + idx) = byte value idx) →
      load bytes width off = value % 256 ^ width
  | 0, off, value, _ => by simp [load, Nat.mod_one]
  | width + 1, off, value, hbytes => by
      have hrest : load bytes width (off + 1) = value / 256 % 256 ^ width := by
        refine load_eq_mod fun idx hidx ↦ ?_
        rw [show off + 1 + idx = off + (idx + 1) by omega,
          hbytes (idx + 1) (by omega), byte, byte, Nat.div_div_eq_div_mul, pow_succ']
      have hfirst : (bytes off).toNat = value % 256 := by
        have hbyte := hbytes 0 (by omega)
        rw [add_zero] at hbyte
        simp [hbyte, byte]
      rw [load, hrest, hfirst, pow_succ', Nat.mod_mul]

theorem load_congr {bytes others : Bytes} :
    ∀ {width off : ℕ}, (∀ idx < width, bytes (off + idx) = others (off + idx)) →
      load bytes width off = load others width off
  | 0, _, _ => rfl
  | width + 1, off, hsame => by
      have hrest : load bytes width (off + 1) = load others width (off + 1) := by
        refine load_congr fun idx hidx ↦ ?_
        have hnext := hsame (idx + 1) (by omega)
        rwa [show off + (idx + 1) = off + 1 + idx by omega] at hnext
      have hfirst := hsame 0 (by omega)
      rw [add_zero] at hfirst
      rw [load, load, hrest, hfirst]

theorem load_lt (bytes : Bytes) : ∀ width off, load bytes width off < 256 ^ width
  | 0, _ => by simp [load]
  | width + 1, off => by
      have hrest := load_lt bytes width (off + 1)
      rw [load, pow_succ']
      omega

/-- The bytes with a number written in `width` of them. -/
def store (bytes : Bytes) (width offset value : ℕ) : Bytes := fun position ↦
  if offset ≤ position ∧ position < offset + width then byte value (position - offset)
  else bytes position

def zero (bytes : Bytes) (offset length : ℕ) : Bytes := fun position ↦
  if offset ≤ position ∧ position < offset + length then 0 else bytes position

variable {bytes : Bytes} {offset off position pos width other length size : ℕ}

theorem store_of_outside (value : ℕ) (houtside : position < offset ∨ offset + width ≤ position) :
    store bytes width offset value position = bytes position :=
  if_neg (by omega)

theorem load_store_self {value : ℕ} (off : ℕ) (hvalue : value < 256 ^ width) :
    load (store bytes width off value) width off = value := by
  rw [load_eq_mod fun idx hidx ↦ ?_, Nat.mod_eq_of_lt hvalue]
  rw [store, if_pos (by omega), Nat.add_sub_cancel_left]

theorem load_store_of_apart {width' : ℕ} (value : ℕ)
    (hapart : off + width ≤ other ∨ other + width' ≤ off) :
    load (store bytes width off value) width' other = load bytes width' other :=
  load_congr fun idx hidx ↦ store_of_outside value (by omega)

theorem load_zero_of_apart (hapart : off + length ≤ other ∨ other + width ≤ off) :
    load (zero bytes off length) width other = load bytes width other :=
  load_congr fun idx hidx ↦ if_neg (by omega)

/-- The bytes with `length` of them copied from another run of bytes. -/
def copy (bytes : Bytes) (offset : ℕ) (source : Bytes) (length : ℕ) : Bytes := fun position ↦
  if offset ≤ position ∧ position < offset + length then source (position - offset)
  else bytes position

theorem copy_of_outside {source : Bytes}
    (houtside : position < offset ∨ offset + length ≤ position) :
    copy bytes offset source length position = bytes position :=
  if_neg (by omega)

theorem copy_of_inside {bytes source : Bytes} {offset length index : ℕ} (hidx : index < length) :
    copy bytes offset source length (offset + index) = source index := by
  rw [copy, if_pos (by omega), Nat.add_sub_cancel_left]

theorem copy_congr {source source' : Bytes} (hsame : ∀ idx < length, source idx = source' idx) :
    copy bytes off source length = copy bytes off source' length := by
  funext pos
  rw [copy, copy]
  split
  · rw [hsame _ (by omega)]
  · rfl

theorem copy_copy_self {start : ℕ} {source : Bytes} (hfits : offset + length ≤ size) :
    copy bytes start (copy (fun place ↦ bytes (start + place)) offset source length) size =
      copy bytes (start + offset) source length := by
  funext position
  by_cases hin : start + offset ≤ position ∧ position < start + offset + length
  · rw [copy, if_pos (by omega), copy, if_pos (by omega), copy, if_pos hin, Nat.sub_sub]
  · rw [@copy_of_outside bytes (start + offset) position length source (by omega), copy]
    by_cases hblock : start ≤ position ∧ position < start + size
    · rw [if_pos hblock, copy_of_outside (by omega), Nat.add_sub_cancel' hblock.1]
    · rw [if_neg hblock]

structure Field where
  offset : ℕ
  width : ℕ
  value : ℕ

def Field.covers (position : ℕ) (field : Field) : Bool :=
  field.offset ≤ position && position < field.offset + field.width

/-- The bytes of a record with these fields; the bytes between them are zero. -/
def encode (fields : List Field) : Bytes := fun position ↦
  match fields.find? (Field.covers position) with
  | some field => byte field.value (position - field.offset)
  | none => 0

theorem load_encode {fields : List Field} (hapart : fields.Pairwise fun field other ↦
      field.offset + field.width ≤ other.offset) {field : Field} (hmem : field ∈ fields) :
    load (encode fields) field.width field.offset = field.value % 256 ^ field.width := by
  refine load_eq_mod fun idx hidx ↦ ?_
  obtain ⟨before, after, rfl⟩ := List.append_of_mem hmem
  have hbefore : before.find? (Field.covers (field.offset + idx)) = none := by
    refine List.find?_eq_none.mpr fun other hother ↦ ?_
    have := (List.pairwise_append.mp hapart).2.2 other hother field List.mem_cons_self
    simp only [Field.covers, Bool.and_eq_true, decide_eq_true_eq]
    omega
  have hcovers : Field.covers (field.offset + idx) field = true := by
    simp only [Field.covers, Bool.and_eq_true, decide_eq_true_eq]
    omega
  rw [encode, List.find?_append, hbefore, Option.none_or, List.find?_cons_of_pos hcovers]
  simp

/-- The record with an index, where every record takes `size` bytes. -/
def slot (size index : ℕ) (bytes : Bytes) : Bytes := fun position ↦ bytes (size * index + position)

def setSlot (size index : ℕ) (record bytes : Bytes) : Bytes := fun position ↦
  if position / size = index then record (position % size) else bytes position

variable {index position : ℕ} {record bytes : Bytes}

theorem slot_setSlot_self (hpos : position < size) :
    slot size index (setSlot size index record bytes) position = record position := by
  have hsize : 0 < size := by omega
  rw [slot, setSlot, if_pos, Nat.mul_add_mod, Nat.mod_eq_of_lt hpos]
  rw [Nat.mul_add_div hsize, Nat.div_eq_of_lt hpos, add_zero]

theorem slot_setSlot_of_ne (hother : other ≠ index) (hpos : position < size) :
    slot size other (setSlot size index record bytes) position = slot size other bytes position := by
  have hsize : 0 < size := by omega
  have hidx : (size * other + position) / size = other := by
    rw [Nat.mul_add_div hsize, Nat.div_eq_of_lt hpos, add_zero]
  rw [slot, setSlot, if_neg (by rwa [hidx]), slot]

/-- The first clear bit among `limit` bits from `start` on. -/
def firstFree (bits : ℕ → Bool) : ℕ → ℕ → Option ℕ
  | 0, _ => none
  | limit + 1, start => if bits start then firstFree bits limit (start + 1) else some start

theorem firstFree_eq_some {bits : ℕ → Bool} :
    ∀ {limit start found : ℕ}, firstFree bits limit start = some found →
      bits found = false ∧ start ≤ found ∧ found < start + limit ∧
        ∀ bit, start ≤ bit → bit < found → bits bit = true
  | limit + 1, start, found, hfound => by
      simp only [firstFree] at hfound
      split at hfound
      · rename_i hset
        obtain ⟨hclear, hstart, hlimit, hbefore⟩ := firstFree_eq_some hfound
        refine ⟨hclear, by omega, by omega, fun bit hbit hlt ↦ ?_⟩
        rcases eq_or_lt_of_le hbit with rfl | hbit
        · exact hset
        · exact hbefore bit hbit hlt
      · rename_i hclear
        cases hfound
        exact ⟨by simpa using hclear, le_rfl, by omega, fun bit hbit hlt ↦ by omega⟩

end DionysOS.Foundation.ByteRecords
