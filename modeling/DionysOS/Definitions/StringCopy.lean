import DionysOS.Definitions.Strings

/-!
# Copying into a bounded buffer

`safe_strcpy` of `string.c`. The loop tests the count behind the character that it has copied, so it
stops one character late, and `dest` has moved on when the terminator is to be written behind it. The
copy is right exactly if the string is shorter than the buffer (`safeStrcpy_bounded_iff`).
-/

namespace DionysOS.Definitions.Strings

open Function List

def NUL : Char := '\x00'

/-- The loop of `safe_strcpy`, from the character at `src` on: the characters that are written, with
their offsets in the buffer, the offset of `dest` at the end, and the counter. -/
def safeStrcpyLoop (destSize : ℕ) : List Char → ℕ → ℕ → List (Char × ℕ) × ℕ × ℕ
  | [], dest, pointer => ([(NUL, dest)], dest + 1, pointer)
  | c :: src, dest, pointer =>
      if pointer < destSize then
        let (writes, last) := safeStrcpyLoop destSize src (dest + 1) ((pointer + 1) % 2 ^ 64)
        ((c, dest) :: writes, last)
      else ([(c, dest)], dest + 1, (pointer + 1) % 2 ^ 64)

/-- `safe_strcpy`: the characters that it writes, with their offsets in the buffer. -/
def safeStrcpy (src : List Char) (destSize : ℕ) : List (Char × ℕ) :=
  let (writes, dest, pointer) := safeStrcpyLoop destSize src 0 0
  if pointer = destSize then writes ++ [(NUL, dest + (destSize - 1))] else writes

def written (buffer : ℕ → Char) (writes : List (Char × ℕ)) : ℕ → Char :=
  writes.foldl (fun buffer (c, offset) ↦ update buffer offset c) buffer

/-- What a bounded copy should do: it writes inside of the buffer only, and leaves the longest prefix
of the string there that fits with its terminator. -/
structure BoundedCopy (src : List Char) (destSize : ℕ) (writes : List (Char × ℕ)) : Prop where
  inside : ∀ write ∈ writes, write.2 < destSize
  contents : ∀ buffer index c, (src.take (destSize - 1) ++ [NUL])[index]? = some c →
    written buffer writes index = c

variable {destSize : ℕ} {src : List Char}

theorem safeStrcpyLoop_of_lt (hsize : destSize < 2 ^ 64) : ∀ {src : List Char} {dest : ℕ},
    dest + src.length < destSize →
      safeStrcpyLoop destSize src dest dest =
        ((src ++ [NUL]).zipIdx dest, dest + src.length + 1, dest + src.length)
  | [], dest, _ => rfl
  | c :: src, dest, hlt => by
      rw [length_cons] at hlt
      have hrest := @safeStrcpyLoop_of_lt hsize src (dest + 1) (by omega)
      rw [safeStrcpyLoop, if_pos (by omega), Nat.mod_eq_of_lt (by omega), hrest]
      simp only [cons_append, zipIdx_cons, length_cons, Prod.mk.injEq, true_and]
      omega

theorem exists_mem_safeStrcpyLoop (hsize : destSize < 2 ^ 64) : ∀ {src : List Char} {dest : ℕ},
    dest ≤ destSize → destSize ≤ dest + src.length →
      ∃ c, (c, destSize) ∈ (safeStrcpyLoop destSize src dest dest).1
  | [], dest, hdest, hlen => by
      obtain rfl : dest = destSize := hdest.antisymm hlen
      exact ⟨NUL, mem_singleton_self _⟩
  | c :: src, dest, hdest, hlen => by
      rw [length_cons] at hlen
      rw [safeStrcpyLoop]
      split
      · rw [Nat.mod_eq_of_lt (by omega)]
        obtain ⟨last, hlast⟩ := @exists_mem_safeStrcpyLoop hsize src (dest + 1) (by omega) (by omega)
        exact ⟨last, mem_cons_of_mem _ hlast⟩
      · obtain rfl : dest = destSize := by omega
        exact ⟨c, mem_singleton_self _⟩

theorem written_zipIdx : ∀ (str : List Char) (buf : ℕ → Char) (start idx : ℕ),
    written buf (str.zipIdx start) idx =
      if start ≤ idx then str[idx - start]?.getD (buf idx) else buf idx
  | [], buf, start, idx => by simp [written]
  | c :: str, buf, start, idx => by
      have hrest := written_zipIdx str (update buf start c) (start + 1) idx
      refine hrest.trans ?_
      rcases lt_trichotomy idx start with hlt | rfl | hgt
      · rw [if_neg (by omega), if_neg (by omega), update_of_ne (by omega)]
      · simp
      · rw [if_pos (by omega), if_pos hgt.le, update_of_ne (by omega),
          show idx - start = idx - (start + 1) + 1 by omega, getElem?_cons_succ]

/-- **A bounded copy** is right exactly if the string is shorter than the buffer. -/
theorem safeStrcpy_bounded_iff (src : List Char) (hsize : destSize < 2 ^ 64) :
    BoundedCopy src destSize (safeStrcpy src destSize) ↔ src.length < destSize := by
  constructor
  · intro hcopy
    by_contra hlong
    obtain ⟨c, hmem⟩ := @exists_mem_safeStrcpyLoop destSize hsize src 0 (by omega) (by omega)
    have hin : destSize < destSize := by
      refine hcopy.inside (c, destSize) ?_
      rw [safeStrcpy]
      dsimp only
      split
      · exact mem_append_left _ hmem
      · exact hmem
    exact lt_irrefl _ hin
  · intro hlt
    have hcopy : safeStrcpy src destSize = (src ++ [NUL]).zipIdx := by
      rw [safeStrcpy, safeStrcpyLoop_of_lt hsize (by omega)]
      exact if_neg (by omega)
    rw [hcopy]
    constructor
    · intro write hwrite
      have hbound := snd_lt_of_mem_zipIdx hwrite
      rw [length_append, length_singleton] at hbound
      omega
    · intro buf idx c hc
      rw [take_of_length_le (by omega)] at hc
      rw [written_zipIdx, if_pos (Nat.zero_le _), Nat.sub_zero, hc, Option.getD_some]

theorem safeStrcpy_bounded_two : BoundedCopy ['a', 'b'] 3 (safeStrcpy ['a', 'b'] 3) :=
  (safeStrcpy_bounded_iff ['a', 'b'] (by decide)).mpr (by decide)

/-- A string of the length of the buffer, and one that is longer. -/
theorem safeStrcpy_not_bounded :
    safeStrcpy ['a', 'b'] 2 = [('a', 0), ('b', 1), (NUL, 2), (NUL, 4)] ∧
      ¬BoundedCopy ['a', 'b'] 2 (safeStrcpy ['a', 'b'] 2) ∧
      safeStrcpy ['a', 'b', 'c'] 2 = [('a', 0), ('b', 1), ('c', 2)] ∧
      ¬BoundedCopy ['a', 'b', 'c'] 2 (safeStrcpy ['a', 'b', 'c'] 2) :=
  ⟨by decide, fun hcopy ↦ absurd (hcopy.inside (NUL, 2) (by decide)) (by decide), by decide,
    fun hcopy ↦ absurd (hcopy.inside ('c', 2) (by decide)) (by decide)⟩

end DionysOS.Definitions.Strings
