import Mathlib.Algebra.Order.Ring.Nat
import Mathlib.Data.BitVec

/-!
# Writing over a sequence

`overlay contents offset data` is the sequence with `data` written over it from position `offset` on.
It may grow: positions up to its end may be written and read. A write of several elements is a
sequence of writes of one.
-/

namespace DionysOS.Foundation.Overlay

open List

variable {α : Type*} {contents : List α} {offset off : ℕ}

def overlay (contents : List α) (offset : ℕ) (data : List α) : List α :=
  contents.take offset ++ data ++ contents.drop (offset + data.length)

theorem length_overlay (hoffset : off ≤ contents.length) (data : List α) :
    (overlay contents off data).length = max contents.length (off + data.length) := by
  simp only [overlay, length_append, length_take, length_drop]
  omega

@[simp]
theorem overlay_nil (contents : List α) (off : ℕ) : overlay contents off [] = contents := by
  simp [overlay]

theorem getElem?_overlay (hoffset : offset ≤ contents.length) (data : List α) (pos : ℕ) :
    (overlay contents offset data)[pos]? =
      if offset ≤ pos ∧ pos < offset + data.length then data[pos - offset]?
      else contents[pos]? := by
  have htake : (contents.take offset).length = offset := by simp [hoffset]
  rw [overlay]
  by_cases hbefore : pos < offset
  · rw [if_neg (by omega), append_assoc, getElem?_append_left (by omega),
      getElem?_take_of_lt hbefore]
  · by_cases hin : pos < offset + data.length
    · rw [if_pos (by omega), append_assoc, getElem?_append_right (by omega), htake,
        getElem?_append_left (by omega)]
    · rw [if_neg (by omega), getElem?_append_right (by simp [htake]; omega), getElem?_drop]
      congr 1
      simp only [length_append, htake]
      omega

theorem overlay_cons (hoffset : off ≤ contents.length) (element : α) (data : List α) :
    overlay contents off (element :: data) =
      overlay (overlay contents off [element]) (off + 1) data := by
  have hnext : off + 1 ≤ (overlay contents off [element]).length := by
    rw [length_overlay hoffset, length_singleton]
    omega
  refine ext_getElem? fun pos ↦ ?_
  rw [getElem?_overlay hoffset, getElem?_overlay hnext, getElem?_overlay hoffset]
  simp only [length_cons, length_nil]
  rcases lt_trichotomy pos off with hlt | rfl | hgt
  · rw [if_neg (by omega), if_neg (by omega), if_neg (by omega)]
  · rw [if_pos (by omega), if_neg (by omega), if_pos (by omega)]
    simp
  · by_cases hin : pos < off + (data.length + 1)
    · rw [if_pos (by omega), if_pos (by omega)]
      obtain ⟨distance, rfl⟩ : ∃ distance, pos = off + 1 + distance :=
        ⟨pos - (off + 1), by omega⟩
      simp [show off + 1 + distance - off = distance + 1 by omega]
    · rw [if_neg (by omega), if_neg (by omega), if_neg (by omega)]

end DionysOS.Foundation.Overlay
