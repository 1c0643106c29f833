import DionysOS.Foundation.ByteRecords
import Mathlib.Data.Nat.Digits.Lemmas

/-!
# The framebuffer

`scroll_framebuffer` of `framebuffer.c`, with `memcpy`, `memmove` and `memset` of `main.c`. `memcpy`
copies byte by byte from the lowest address on, so it may move bytes down over themselves. Addresses
are numbers: no range wraps around the address space.

The second half is about numbers: the characters that `ksprintf` writes for `%i` and those of
`insert_hex`, read back as digits.
-/

namespace DionysOS.Drivers.Display

open Foundation.ByteRecords Function List

/-- `memcpy`: `n` rounds of its loop. -/
def memcpy (memory : Bytes) (dest src : ℕ) : ℕ → Bytes
  | 0 => memory
  | n + 1 =>
      let memory := memcpy memory dest src n
      update memory (dest + n) (memory (src + n))

/-- The second loop of `memmove`, which goes down from the last byte. -/
def moveDown (dest src : ℕ) : ℕ → Bytes → Bytes
  | 0, memory => memory
  | i + 1, memory => moveDown dest src i (update memory (dest + i) (memory (src + i)))

/-- `memmove`. Its first loop is the loop of `memcpy`. -/
def memmove (memory : Bytes) (dest src n : ℕ) : Bytes :=
  if src > dest then memcpy memory dest src n
  else if src < dest then moveDown dest src n memory
  else memory

def memset (memory : Bytes) (s : ℕ) (c : Byte) : ℕ → Bytes
  | 0 => memory
  | n + 1 => update (memset memory s c n) (s + n) c

structure Framebuffer where
  address : ℕ
  height : ℕ
  width : ℕ
  pitch : ℕ
  fontHeight : ℕ
  fontWidth : ℕ
  currentXPos : ℕ
  currentYPos : ℕ

def scrollFramebuffer (fb : Framebuffer) (memory : Bytes) : Framebuffer × Bytes :=
  let rowsSize := fb.pitch * (fb.height - fb.fontHeight)
  let rowSize := fb.pitch * fb.fontHeight
  let memory := memcpy memory fb.address (fb.address + rowSize) rowsSize
  ({ fb with currentYPos := fb.height - fb.fontHeight, currentXPos := 0 },
    memset memory (fb.address + rowsSize) 0 rowSize)

/-- The byte to read next lies behind the bytes that are written already. -/
theorem memcpy_eq_copy (mem : Bytes) {dest src : ℕ} (hdown : dest ≤ src) (n : ℕ) :
    memcpy mem dest src n = copy mem dest (fun idx ↦ mem (src + idx)) n := by
  induction n with
  | zero =>
    funext pos
    exact (copy_of_outside (by omega)).symm
  | succ n ih =>
    funext pos
    rw [memcpy, ih, copy_of_outside (by omega)]
    grind [copy]

/-- The bytes to read next lie below the bytes that are written already. -/
theorem moveDown_eq_copy {dest src : ℕ} (hup : src ≤ dest) (n : ℕ) : ∀ mem : Bytes,
    moveDown dest src n mem = copy mem dest (fun idx ↦ mem (src + idx)) n := by
  induction n with
  | zero =>
    intro mem
    funext pos
    exact (copy_of_outside (by omega)).symm
  | succ n ih =>
    intro mem
    have hbelow : ∀ idx < n, update mem (dest + n) (mem (src + n)) (src + idx) =
        mem (src + idx) := fun idx hidx ↦ update_of_ne (by omega) ..
    funext pos
    rw [moveDown, ih, copy_congr hbelow]
    grind [copy]

/-- **`memmove` is safe for overlapping ranges.** -/
theorem memmove_moves (memory : Bytes) (dest src n : ℕ) :
    (∀ index < n, memmove memory dest src n (dest + index) = memory (src + index)) ∧
    ∀ position, position < dest ∨ dest + n ≤ position →
      memmove memory dest src n position = memory position := by
  have hcopy : memmove memory dest src n = copy memory dest (fun index ↦ memory (src + index)) n := by
    unfold memmove
    split_ifs with hdown hup
    · exact memcpy_eq_copy memory hdown.le n
    · exact moveDown_eq_copy hup.le n memory
    · obtain rfl : src = dest := by omega
      funext position
      grind [copy]
  rw [hcopy]
  exact ⟨fun index hidx ↦ copy_of_inside hidx, fun position houtside ↦ copy_of_outside houtside⟩

theorem memset_eq_zero (mem : Bytes) (s n : ℕ) : memset mem s 0 n = zero mem s n := by
  induction n with
  | zero =>
    funext pos
    exact (if_neg (by omega)).symm
  | succ n ih =>
    funext pos
    rw [memset, ih]
    grind [zero]

/-- **Scrolling** moves the picture up by a row of text, and clears the last row. -/
theorem scrollFramebuffer_spec {fb : Framebuffer} (hheight : fb.fontHeight ≤ fb.height)
    (memory : Bytes) (position : ℕ) :
    (scrollFramebuffer fb memory).2 position =
      if position < fb.address ∨ fb.address + fb.height * fb.pitch ≤ position then memory position
      else if position < fb.address + fb.pitch * (fb.height - fb.fontHeight) then
        memory (position + fb.pitch * fb.fontHeight)
      else 0 := by
  have hsize : fb.pitch * (fb.height - fb.fontHeight) + fb.pitch * fb.fontHeight =
      fb.height * fb.pitch := by
    rw [← Nat.mul_add, Nat.sub_add_cancel hheight, Nat.mul_comm]
  rw [scrollFramebuffer]
  rw [memset_eq_zero, memcpy_eq_copy _ (Nat.le_add_right ..)]
  grind [zero, copy]

theorem scrollFramebuffer_small :
    (scrollFramebuffer ⟨0, 16, 8, 32, 8, 8, 0, 16⟩ fun position ↦ if position = 257 then 7 else 0).2 1 =
      7 :=
  scrollFramebuffer_spec (by decide) _ 1

def characters : List Char :=
  ['0', '1', '2', '3', '4', '5', '6', '7', '8', '9', 'A', 'B', 'C', 'D', 'E', 'F']

/-- The first loop of the directive `%i`, over the 20 characters of `num_buffer`. -/
def digitLoop (value : ℕ) (numBuffer : List Char) : Option (List Char) :=
  if value = 0 then some numBuffer
  else if numBuffer.length < 20 then do
    let character ← characters[value % 10]?
    digitLoop (value / 10) (numBuffer ++ [character])
  else none
termination_by value

/-- The characters that `ksprintf` writes for `%i`. -/
def formatInteger (value : ℕ) : Option (List Char) :=
  if value = 0 then some ['0'] else (digitLoop value []).map List.reverse

def getHexChar (nibble : ℕ) : Option Char :=
  if nibble ≤ 16 then characters[nibble]? else some '?'

/-- The loop of `insert_hex`, where `i` starts from `size - 4`. -/
def hexLoop (num : ℕ) : ℕ → Option (List Char)
  | i + 4 => do
      let c ← getHexChar ((num >>> i) &&& 0xF)
      let rest ← hexLoop num i
      some (c :: rest)
  | _ => some []

/-- The characters that `insert_hex` writes. -/
def insertHex (num size : ℕ) : Option (List Char) := (hexLoop num size).map ('0' :: 'x' :: ·)

/-- The number that digits stand for, the most significant one first. -/
def readBack (base : ℕ) (text : List Char) : ℕ :=
  Nat.ofDigits base (text.reverse.map characters.idxOf)

def digitChar (digit : ℕ) : Char := characters.getD digit '?'

theorem digitChar_spec : ∀ digit < 16, characters[digit]? = some (digitChar digit) ∧
    characters.idxOf (digitChar digit) = digit := by
  decide

theorem digitChar_mem : ∀ digit < 10, digitChar digit ∈ characters.take 10 := by
  decide

theorem digitLoop_eq (value : ℕ) : ∀ numBuffer : List Char,
    numBuffer.length + (Nat.digits 10 value).length ≤ 20 →
      digitLoop value numBuffer = some (numBuffer ++ (Nat.digits 10 value).map digitChar) := by
  induction value using Nat.strong_induction_on with
  | _ value ih =>
    intro numBuffer hlen
    rw [digitLoop]
    split
    next hzero => simp [hzero]
    next hpos =>
      have hdigits := Nat.digits_def' (b := 10) (by decide) (pos_of_ne_zero hpos)
      rw [hdigits, length_cons] at hlen
      rw [if_pos (by omega), (digitChar_spec (value % 10) (by omega)).1, hdigits]
      simp only [Option.bind_eq_bind, Option.bind_some]
      rw [ih (value / 10) (by omega) _ (by simp; omega)]
      simp

theorem readBack_map {base : ℕ} {digits : List ℕ} (hdigits : ∀ digit ∈ digits, digit < 16) :
    readBack base (digits.map digitChar).reverse = Nat.ofDigits base digits := by
  have hidx : ∀ digit ∈ digits, characters.idxOf (digitChar digit) = digit :=
    fun digit hdigit ↦ (digitChar_spec digit (hdigits digit hdigit)).2
  rw [readBack, reverse_reverse, map_map]
  congr 1
  exact (map_congr_left hidx).trans (map_id' digits)

theorem hexLoop_spec (num : ℕ) : ∀ count : ℕ, ∃ digits, hexLoop num (4 * count) = some digits ∧
    digits.length = count ∧ (∀ c ∈ digits, c ∈ characters) ∧
    readBack 16 digits = num % 16 ^ count
  | 0 => ⟨[], rfl, rfl, by simp, by simp [readBack, Nat.mod_one]⟩
  | count + 1 => by
      obtain ⟨digits, hloop, hlen, hmem, hread⟩ := hexLoop_spec num count
      have hnibble : (num >>> (4 * count)) &&& 0xF = num / 16 ^ count % 16 := by
        rw [Nat.shiftRight_eq_div_pow, pow_mul]
        exact Nat.and_two_pow_sub_one_eq_mod _ 4
      have hlt : num / 16 ^ count % 16 < 16 := Nat.mod_lt _ (by decide)
      obtain ⟨hchar, hidx⟩ := digitChar_spec _ hlt
      refine ⟨digitChar (num / 16 ^ count % 16) :: digits, ?_, by simp [hlen], ?_, ?_⟩
      · rw [Nat.mul_succ, hexLoop, hnibble, getHexChar, if_pos hlt.le, hchar, hloop]
        rfl
      · exact forall_mem_cons.mpr ⟨mem_of_getElem? hchar, hmem⟩
      · rw [readBack] at hread ⊢
        rw [reverse_cons, map_append, Nat.ofDigits_append, hread, Nat.mod_pow_succ]
        simp [hidx, hlen]

theorem formatInteger_spec {value : ℕ} (hpos : value ≠ 0) (hvalue : value < 2 ^ 64) :
    ∃ text, formatInteger value = some text ∧ text.length ≤ 20 ∧
      (∀ c ∈ text, c ∈ characters.take 10) ∧ text.head? ≠ some '0' ∧ readBack 10 text = value := by
  have hlen : (Nat.digits 10 value).length ≤ 20 :=
    (Nat.digits_length_le_iff (by decide) value).mpr (hvalue.trans (by decide))
  have hsmall : ∀ digit ∈ Nat.digits 10 value, digit < 10 := fun _ ↦ Nat.digits_lt_base (by decide)
  refine ⟨((Nat.digits 10 value).map digitChar).reverse, ?_, by simpa, ?_, ?_, ?_⟩
  · rw [formatInteger, if_neg hpos, digitLoop_eq value [] (by simpa)]
    rfl
  · intro c hc
    obtain ⟨digit, hdigit, rfl⟩ := mem_map.mp (mem_reverse.mp hc)
    exact digitChar_mem digit (hsmall digit hdigit)
  · -- The first character is that of the last digit, which is not zero.
    intro hhead
    have hnil : Nat.digits 10 value ≠ [] := Nat.digits_ne_nil_iff_ne_zero.mpr hpos
    have hlast := digitChar_spec _ ((hsmall _ (getLast_mem hnil)).trans (by decide))
    rw [head?_reverse, getLast?_map, getLast?_eq_getLast_of_ne_nil hnil] at hhead
    rw [Option.some.inj hhead] at hlast
    exact Nat.getLast_digit_ne_zero 10 hpos hlast.2.symm
  · rw [readBack_map fun digit hdigit ↦ (hsmall digit hdigit).trans (by decide),
      Nat.ofDigits_digits]

/-- **Number conversion.** The digits for `%i` fit into the scratch buffer, have no leading zero and
stand for the value; those of `insert_hex` stand for the value without its higher bits. -/
theorem number_conversion (value : BitVec 64) :
    (∃ text, formatInteger value.toNat = some text ∧ text.length ≤ 20 ∧
      (∀ c ∈ text, c ∈ characters.take 10) ∧ (text.head? = some '0' → text = ['0']) ∧
      readBack 10 text = value.toNat) ∧
    ∀ size ∈ [8, 16, 32, 64], ∃ digits, insertHex value.toNat size = some ('0' :: 'x' :: digits) ∧
      digits.length = size / 4 ∧ (∀ c ∈ digits, c ∈ characters) ∧
      readBack 16 digits = value.toNat % 2 ^ size := by
  constructor
  · by_cases hzero : value.toNat = 0
    · exact ⟨['0'], by rw [formatInteger, if_pos hzero], by decide, by simp [characters],
        fun _ ↦ rfl, hzero.symm⟩
    · obtain ⟨text, htext, hlen, hdigits, hhead, hread⟩ := formatInteger_spec hzero value.isLt
      exact ⟨text, htext, hlen, hdigits, fun h ↦ absurd h hhead, hread⟩
  · intro size hsize
    obtain ⟨count, rfl⟩ : 4 ∣ size := (by decide : ∀ size ∈ [8, 16, 32, 64], 4 ∣ size) size hsize
    obtain ⟨digits, hloop, hdigits⟩ := hexLoop_spec value.toNat count
    refine ⟨digits, by rw [insertHex, hloop]; rfl, ?_⟩
    rw [pow_mul, Nat.mul_div_cancel_left _ (by decide)]
    exact hdigits

end DionysOS.Drivers.Display
