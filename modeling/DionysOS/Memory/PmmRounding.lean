import DionysOS.Foundation.BitSmearing
import DionysOS.Memory.Pmm

/-!
# Rounding requests up to powers of two

`next_power_of_two` spreads the bits of the number below the request and adds one.
`powerOfTwo_rounding` says what `is_power_of_two` and `next_power_of_two` compute and what number of
pages `buddy_alloc` therefore looks for.
-/

namespace DionysOS.Memory.Pmm

open Foundation BitVec

variable {pages : ℕ}

theorem nextPowerOfTwo_eq (hpages : pages ≤ 2 ^ 63) :
    nextPowerOfTwo pages = 2 ^ Nat.clog 2 pages := by
  unfold nextPowerOfTwo
  cases pages with
  | zero => simp
  | succ below =>
    have hword : (BitVec.ofNat 64 below).toNat = below := Nat.mod_eq_of_lt (by omega)
    have hless : BitVec.ofNat 64 (below + 1) - 1 = BitVec.ofNat 64 below := by
      rw [BitVec.ofNat_add]
      exact BitVec.add_sub_cancel ..
    have hnonzero : BitVec.ofNat 64 (below + 1) ≠ 0 := by
      intro hzero
      have hnat : (below + 1) % 2 ^ 64 = 0 := congrArg BitVec.toNat hzero
      omega
    have hbound : 2 ^ Nat.clog 2 (below + 1) ≤ 2 ^ 63 :=
      Nat.pow_le_pow_right (by decide) (Nat.clog_le_of_le_pow hpages)
    have hsmeared := (smeared_self (.ofNat 64 below)).double.double.double.double.double.double
    have hsum := hsmeared.toNat_add_one
    rw [hword] at hsum
    rw [if_neg hnonzero, hless]
    refine (toNat_add ..).trans ?_
    exact (congrArg (· % 2 ^ 64) hsum).trans (Nat.mod_eq_of_lt (by omega))

theorem isPowerOfTwo_iff (word : BitVec 64) :
    isPowerOfTwo word.toNat = true ↔ Nat.isPowerOfTwo word.toNat := by
  rw [isPowerOfTwo, ofNat_toNat, setWidth_eq, Bool.and_eq_true, bne_iff_ne,
    beq_iff_eq]
  by_cases hzero : word = 0
  · subst hzero
    refine iff_of_false (fun h ↦ h.1 rfl) ?_
    rintro ⟨exponent, hpower⟩
    exact (Nat.two_pow_pos exponent).ne hpower
  · have hpos : word.toNat ≠ 0 := fun h ↦ hzero (eq_of_toNat_eq h)
    have hless : (word - 1).toNat = word.toNat - 1 := by
      apply BitVec.toNat_sub_of_le
      exact Nat.one_le_iff_ne_zero.mpr hpos
    rw [← Nat.and_sub_one_eq_zero_iff_isPowerOfTwo hpos, ← hless, ← BitVec.toNat_and]
    exact ⟨fun h ↦ congrArg BitVec.toNat h.2, fun h ↦ ⟨hzero, BitVec.eq_of_toNat_eq h⟩⟩

theorem roundedPages_eq (hpages : pages ≤ 2 ^ 63) : roundedPages pages = 2 ^ Nat.clog 2 pages := by
  unfold roundedPages
  split
  next hpower =>
    have hword : (BitVec.ofNat 64 pages).toNat = pages := Nat.mod_eq_of_lt (by omega)
    obtain ⟨order, horder⟩ := (isPowerOfTwo_iff (.ofNat 64 pages)).mp (hword.symm ▸ hpower)
    rw [← hword, horder, Nat.clog_pow 2 order (by decide)]
  next => exact nextPowerOfTwo_eq hpages

/-- **Rounding.** `is_power_of_two` recognises the powers of two, `next_power_of_two` returns the
least one that is not below its argument, and so does the rounding in `buddy_alloc`. -/
theorem powerOfTwo_rounding (x : BitVec 64) :
    (isPowerOfTwo x.toNat = true ↔ ∃ exponent, x.toNat = 2 ^ exponent) ∧
    (x.toNat ≤ 2 ^ 63 →
      (1 ≤ x.toNat → IsLeast {power | x.toNat ≤ power ∧ ∃ exponent, power = 2 ^ exponent}
        (nextPowerOfTwo x.toNat)) ∧
      IsLeast {power | x.toNat ≤ power ∧ ∃ exponent, power = 2 ^ exponent}
        (roundedPages x.toNat)) := by
  refine ⟨isPowerOfTwo_iff x, fun hle ↦ ⟨fun _ ↦ ?_, ?_⟩⟩
  · rw [nextPowerOfTwo_eq hle]
    exact isLeast_two_pow_clog x.toNat
  · rw [roundedPages_eq hle]
    exact isLeast_two_pow_clog x.toNat

theorem powerOfTwo_rounding_five :
    IsLeast {power | 5 ≤ power ∧ ∃ exponent, power = 2 ^ exponent} (nextPowerOfTwo 5) :=
  ((powerOfTwo_rounding 5).2 (by decide)).1 (by decide)

end DionysOS.Memory.Pmm
