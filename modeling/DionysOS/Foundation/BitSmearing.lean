import Mathlib.Data.Nat.Log
import Mathlib.Order.Interval.Finset.Nat

/-!
# Spreading the bits of a word

Or-ing a word with itself shifted right by one, two, four bits and so on copies every set bit to all
lower positions. What is left is a power of two less one, the least one that is not below the word.
-/

namespace DionysOS.Foundation

open BitVec

variable {size width : ℕ} {word smeared : BitVec size}

/-- Bit `index` of `smeared` says whether one of the `width` bits of `word` from `index` on is
set. -/
def Smeared (word : BitVec size) (width : ℕ) (smeared : BitVec size) : Prop :=
  ∀ index, smeared.getLsbD index = true ↔
    ∃ bit, index ≤ bit ∧ bit < index + width ∧ word.getLsbD bit = true

theorem smeared_self (word : BitVec size) : Smeared word 1 word := by
  intro index
  constructor
  · intro hset
    exact ⟨index, le_rfl, Nat.lt_succ_self index, hset⟩
  · rintro ⟨bit, hle, hlt, hset⟩
    obtain rfl : bit = index := by omega
    exact hset

theorem Smeared.double (hsmeared : Smeared word width smeared) :
    Smeared word (width + width) (smeared ||| smeared >>> width) := by
  intro idx
  rw [getLsbD_or, getLsbD_ushiftRight, Bool.or_eq_true, hsmeared idx,
    hsmeared (width + idx)]
  constructor
  · rintro (⟨bit, hle, hlt, hset⟩ | ⟨bit, hle, hlt, hset⟩)
    · exact ⟨bit, hle, by omega, hset⟩
    · exact ⟨bit, by omega, by omega, hset⟩
  · rintro ⟨bit, hle, hlt, hset⟩
    by_cases hlow : bit < idx + width
    · exact .inl ⟨bit, hle, hlow, hset⟩
    · exact .inr ⟨bit, by omega, by omega, hset⟩

theorem Smeared.toNat_add_one (hsmeared : Smeared word size smeared) :
    smeared.toNat + 1 = 2 ^ Nat.clog 2 (word.toNat + 1) := by
  have hbits : smeared.toNat = 2 ^ Nat.clog 2 (word.toNat + 1) - 1 := by
    apply Nat.eq_of_testBit_eq
    intro idx
    rw [Nat.testBit_two_pow_sub_one, Bool.eq_iff_iff, decide_eq_true_iff,
      Nat.lt_clog_iff_pow_lt (by decide), Nat.lt_succ_iff]
    refine (hsmeared idx).trans ⟨?_, ?_⟩
    · rintro ⟨bit, hle, -, hset⟩
      exact (Nat.pow_le_pow_right (by decide) hle).trans (Nat.ge_two_pow_of_testBit hset)
    · intro hle
      obtain ⟨bit, hge, hset⟩ := Nat.exists_ge_and_testBit_of_ge_two_pow hle
      have hbit := lt_of_getLsbD hset
      exact ⟨bit, hge, by omega, hset⟩
  rw [hbits, Nat.sub_add_cancel Nat.one_le_two_pow]

theorem isLeast_two_pow_clog (num : ℕ) :
    IsLeast {power | num ≤ power ∧ ∃ exponent, power = 2 ^ exponent}
      (2 ^ Nat.clog 2 num) := by
  refine ⟨⟨Nat.le_pow_clog (by decide) num, _, rfl⟩, ?_⟩
  rintro _ ⟨hle, exponent, rfl⟩
  exact Nat.pow_le_pow_right (by decide) (Nat.clog_le_of_le_pow hle)

end DionysOS.Foundation
