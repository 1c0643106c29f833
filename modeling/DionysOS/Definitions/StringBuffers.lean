import DionysOS.Definitions.Strings

/-!
# Strings in zeroed buffers

`strcat`, `strtok` and `strtok_count` of `string.c` on a buffer that was zeroed when it was allocated.
The string in it ends at the first zero, and as long as it is shorter than the buffer `strcat` needs
to write no terminator. At a delimiter that ends the string, `strtok` steps over the terminator; it
finds another zero there if the buffer goes on.
-/

namespace DionysOS.Definitions.Strings

open List Option

def UINT64_MAX : ℕ := 2 ^ 64 - 1

/-- `strcat` in a zeroed buffer of `size` bytes. -/
def strcat (size : ℕ) (str1 str2 : List Char) : Option (List Char) :=
  if str1.length + str2.length < size then some (str1 ++ str2) else none

/-- `strtok` on a string in a zeroed buffer of `size` bytes, into one of the same size. -/
def strtokZeroed (size : ℕ) (str : List Char) (delimiter : Char) (tokenNumber : ℕ) :
    Option (List Char × Bool) :=
  strtokZeroedLoop (decide (str.length + 1 < size)) delimiter tokenNumber
    (if str.head? = some delimiter then str.tail else str) 1 []

/-- `strtok_count`. Each round asks for the same token. -/
def strtokCount (size : ℕ) (str : List Char) (delimiter : Char) : ℕ → Option ℕ
  | 0 => none
  | fuel + 1 => do
      let (_, last) ← strtokZeroed size str delimiter UINT64_MAX
      if last then some 1 else (strtokCount size str delimiter fuel).map (· + 1)

variable {room : Bool} {delimiter delim : Char} {tokenNumber currentToken : ℕ}

theorem exists_strtokZeroedLoop_copy {rest : List Char} (hrest : rest = [] ∨ rest.head? = some delimiter)
    {chars token : List Char} (hchars : delimiter ∉ chars) :
    ∃ last, strtokZeroedLoop room delimiter currentToken (chars ++ rest) currentToken token =
      some (token ++ chars, last) := by
  rw [strtokZeroedLoop_copy _ _ hchars]
  cases rest with
  | nil => exact ⟨true, rfl⟩
  | cons c others =>
    obtain rfl : c = delimiter := by simpa using hrest
    exact ⟨false, strtokZeroedLoop_stop ..⟩

theorem exists_strtokZeroedLoop : ∀ (str : List Char) (cur : ℕ) (token : List Char),
    ∃ result, strtokZeroedLoop true delim tokenNumber str cur token = some result
  | [], _, token => ⟨(token, true), rfl⟩
  | [c], cur, token => by
      simp only [strtokZeroedLoop]
      split
      · exact ⟨_, rfl⟩
      · split <;> exact ⟨_, rfl⟩
  | c :: d :: str, cur, token => by
      rw [strtokZeroedLoop]
      split
      · exact ⟨_, rfl⟩
      · split
        · exact exists_strtokZeroedLoop str _ _
        · exact exists_strtokZeroedLoop (d :: str) _ _

theorem last_of_strtokZeroedLoop :
    ∀ {str : List Char} {current : ℕ} {token found : List Char} {last : Bool},
      current + str.length < tokenNumber →
      strtokZeroedLoop room delimiter tokenNumber str current token = some (found, last) →
      last = true
  | [], current, token, found, last, _, hloop => by
      simp only [strtokZeroedLoop, some.injEq, Prod.mk.injEq] at hloop
      exact hloop.2.symm
  | c :: str, current, token, found, last, hnum, hloop => by
      have hlater : tokenNumber ≠ current := by omega
      by_cases hc : c = delimiter
      · cases str with
        | nil =>
          simp only [strtokZeroedLoop, hc, hlater, hlater.symm, ne_eq, not_false_eq_true, and_true,
            and_self, if_true, if_false] at hloop
          split at hloop
          · cases hloop
            rfl
          · cases hloop
        | cons d str =>
          simp only [strtokZeroedLoop, hc, hlater, hlater.symm, ne_eq, not_false_eq_true, and_true,
            and_self, if_true, if_false] at hloop
          simp only [length_cons] at hnum
          exact last_of_strtokZeroedLoop (by omega) hloop
      · rw [strtokZeroedLoop_of_ne hc] at hloop
        rw [length_cons] at hnum
        exact last_of_strtokZeroedLoop (by omega) hloop

variable {size fuel : ℕ} {str : List Char}

section

variable (hshort : str.length + 1 < UINT64_MAX)
include hshort

theorem lastToken_of_strtokZeroed {token : List Char} {last : Bool}
    (hstrtok : strtokZeroed size str delim UINT64_MAX = some (token, last)) : last = true := by
  have htail : (if str.head? = some delim then str.tail else str).length ≤ str.length := by
    split
    · rw [length_tail]
      omega
    · exact le_refl _
  exact last_of_strtokZeroedLoop (by omega) hstrtok

/-- **The count of tokens is one.** `strtok_count` asks for a token that no string has, and is told
each time that it was the last one. -/
theorem strtokCount_eq_one {count : ℕ} (hcount : strtokCount size str delim fuel = some count) :
    count = 1 := by
  cases fuel with
  | zero => cases hcount
  | succ fuel =>
    obtain ⟨⟨token, last⟩, hstrtok, hcount⟩ := bind_eq_some_iff.mp hcount
    obtain rfl := lastToken_of_strtokZeroed hshort hstrtok
    exact (some.inj hcount).symm

theorem strtokCount_of_room
    (hroom : str.length + 1 < size) : strtokCount size str delim (fuel + 1) = some 1 := by
  obtain ⟨⟨token, last⟩, hloop⟩ := @exists_strtokZeroedLoop delim UINT64_MAX
    (if str.head? = some delim then str.tail else str) 1 []
  have hstrtok : strtokZeroed size str delim UINT64_MAX = some (token, last) := by
    rw [strtokZeroed, decide_eq_true hroom, hloop]
  obtain rfl := lastToken_of_strtokZeroed hshort hstrtok
  rw [strtokCount, hstrtok]
  rfl

end

end DionysOS.Definitions.Strings
