import DionysOS.Filesystem.TmpfsTree
import DionysOS.Foundation.Bitmap

/-!
# The node numbers of tmpfs

`tmpfs_node_bitmap_get` and `tmpfs_node_bitmap_free` over the bytes of `tmpfs_node_number_bitmap`. The
masks have 64 bits and what they give is narrowed to a byte. `bitmapGet_eq` says that the search
through the bytes is the scan of their bits, by which the tree of nodes is modelled.
-/

namespace DionysOS.Filesystem.TmpfsTree

open Foundation Bitmap ByteRecords PartialMachine List Option Function
open Tmpfs (PAGE_SIZE)

/-- `BIT`. -/
def bitMask (bit : ℕ) : BitVec 64 := 1 <<< bit

/-- The inner loop of `tmpfs_node_bitmap_get`. -/
def freeBit (value : Byte) : Option ℕ :=
  (range 8).find? fun bit ↦ value.setWidth 64 &&& bitMask bit == 0

def bitmapGet (bytes : Bytes) : Option (ℕ × Bytes) :=
  (range PAGE_SIZE).findSome? fun index ↦
    if bytes index ≠ 0xFF then
      (freeBit (bytes index)).map fun bit ↦ (index * 8 + bit, Function.update bytes index
        (((bytes index).setWidth 64 ||| bitMask bit).setWidth 8))
    else none

def bitmapFree (bytes : Bytes) (number : ℕ) : Bytes :=
  Function.update bytes (number / 8)
    (((bytes (number / 8)).setWidth 64 &&& ~~~bitMask (number % 8)).setWidth 8)

theorem freeBit_eq : ∀ value : Byte,
    (if value ≠ 0xFF then freeBit value else none) = firstFree value.getLsbD 8 0 := by
  decide +kernel

theorem setWidth_or_bitMask : ∀ value : Byte, ∀ bit < 8,
    (value.setWidth 64 ||| bitMask bit).setWidth 8 = value ||| 1#8 <<< bit := by
  decide +kernel

theorem setWidth_and_bitMask : ∀ value : Byte, ∀ bit < 8,
    (value.setWidth 64 &&& ~~~bitMask bit).setWidth 8 = value &&& ~~~(1#8 <<< bit) := by
  decide +kernel

theorem bitmapFree_eq (bytes : Bytes) (num : ℕ) :
    bitmapFree bytes num = erase bytes (num / 8) (num % 8) := by
  rw [bitmapFree, setWidth_and_bitMask _ _ (Nat.mod_lt _ (by decide)), erase]

theorem findSome?_firstFree (bytes : Bytes) (count : ℕ) :
    ((range count).findSome? fun idx ↦
      (firstFree (bytes idx).getLsbD 8 0).map (8 * idx + ·)) =
        firstFree (bitOf bytes) (8 * count) 0 := by
  induction count with
  | zero => rfl
  | succ count ih =>
    have hlast : firstFree (bitOf bytes) 8 (8 * count) =
        (firstFree (bytes count).getLsbD 8 0).map (8 * count + ·) := by
      rw [← add_zero (8 * count), firstFree_shift, add_zero]
      congr 1
      exact firstFree_congr fun bit _ hbit ↦ (bitOf_mul_add bytes count (by omega))
    rw [range_succ, findSome?_append, ih, Nat.mul_succ, firstFree_add, zero_add, hlast]
    simp

theorem bitmapGet_eq (bytes : Bytes) :
    bitmapGet bytes = (firstFree (bitOf bytes) NODE_NUMBERS 0).map fun num ↦
      (num, mark bytes (num / 8) (num % 8)) := by
  rw [NODE_NUMBERS, mul_comm, ← findSome?_firstFree, map_findSome?, bitmapGet]
  congr 1
  funext idx
  rw [comp_apply, ← freeBit_eq]
  split
  · cases hfree : freeBit (bytes idx) with
    | none => rfl
    | some bit =>
      have hbit : bit < 8 := mem_range.mp (mem_of_find?_eq_some hfree)
      simp only [map_some, mark, setWidth_or_bitMask _ _ hbit, mul_comm idx 8,
        Nat.mul_add_div (by decide : 0 < 8), Nat.mul_add_mod, Nat.div_eq_of_lt hbit,
        Nat.mod_eq_of_lt hbit, add_zero]
  · rfl

/-- The bitmap, and the numbers that `tmpfs_node_bitmap_get` has returned and that are not free. -/
structure Numbers where
  bytes : Bytes
  outstanding : List ℕ

inductive NumberOperation where
  | get
  | free (number : ℕ)

def numberStep (state : Numbers) : NumberOperation → Option (Numbers × ℕ)
  | .get => do
      let (number, bytes) ← bitmapGet state.bytes
      some (⟨bytes, number :: state.outstanding⟩, number)
  | .free number =>
      some (⟨bitmapFree state.bytes number, state.outstanding.erase number⟩, 0)

def FreesOutstanding (state : Numbers) : NumberOperation → Prop
  | .get => True
  | .free number => number ∈ state.outstanding

instance (state : Numbers) : ∀ operation, Decidable (FreesOutstanding state operation)
  | .get => instDecidableTrue
  | .free number => inferInstanceAs (Decidable (number ∈ state.outstanding))

/-- The set bits are the outstanding numbers. -/
structure Numbers.Marked (state : Numbers) : Prop where
  nodup : state.outstanding.Nodup
  bits : ∀ number, bitOf state.bytes number = true ↔ number ∈ state.outstanding

variable {state next : Numbers} {operation op : NumberOperation} {out : ℕ}

theorem Numbers.Marked.step (hmarked : state.Marked) (hguard : FreesOutstanding state op)
    (hstep : numberStep state op = some (next, out)) : next.Marked := by
  cases op with
  | get =>
    simp only [numberStep, bitmapGet_eq, bind_eq_bind] at hstep
    obtain ⟨taken, hget, hstep⟩ := bind_eq_some_iff.mp hstep
    obtain ⟨found, hfound, rfl⟩ := map_eq_some_iff.mp hget
    cases hstep
    have hclear := (firstFree_eq_some hfound).1
    refine ⟨nodup_cons.mpr ⟨fun hmem ↦ ?_, hmarked.nodup⟩, fun other ↦ ?_⟩
    · rw [(hmarked.bits _).mpr hmem] at hclear
      cases hclear
    · rw [bitOf_mark _ _ (Nat.mod_lt _ (by decide)), Nat.div_add_mod, Bool.or_eq_true,
        hmarked.bits other, beq_iff_eq, mem_cons, or_comm]
  | free num =>
    cases hstep
    refine ⟨hmarked.nodup.erase num, fun other ↦ ?_⟩
    rw [bitmapFree_eq, bitOf_erase _ _ (Nat.mod_lt _ (by decide)), Nat.div_add_mod,
      Bool.and_eq_true, hmarked.bits other, bne_iff_ne, hmarked.nodup.mem_erase_iff, and_comm]

/-- **Node numbers are handed out first fit.** -/
theorem run_numbers_firstFit {operations : List NumberOperation} {final : Numbers} {outs : List ℕ}
    (hguarded : Guarded numberStep FreesOutstanding ⟨fun _ ↦ 0, []⟩ operations)
    (hrun : run numberStep ⟨fun _ ↦ 0, []⟩ operations = some (final, outs)) :
    final.outstanding.Nodup ∧
    (∀ number, bitOf final.bytes number = true ↔ number ∈ final.outstanding) ∧
    (∀ number bytes, bitmapGet final.bytes = some (number, bytes) →
      number < 32768 ∧ number ∉ final.outstanding ∧
        ∀ smaller < number, smaller ∈ final.outstanding) ∧
    (bitmapGet final.bytes = none → ∀ number < 32768, number ∈ final.outstanding) := by
  have hmarked : final.Marked := run_preserves
    (fun state operation next out hmarked hguard hstep ↦ hmarked.step hguard hstep)
    ⟨nodup_nil, fun number ↦ by simp [bitOf]⟩ hguarded hrun
  refine ⟨hmarked.nodup, hmarked.bits, fun number bytes hget ↦ ?_, fun hnone number hnum ↦ ?_⟩
  · rw [bitmapGet_eq] at hget
    obtain ⟨found, hfound, hget⟩ := map_eq_some_iff.mp hget
    cases hget
    obtain ⟨hclear, -, hbound, hbefore⟩ := firstFree_eq_some hfound
    refine ⟨hbound.trans_eq (Nat.zero_add _), fun hmem ↦ ?_, fun smaller hsmaller ↦ ?_⟩
    · rw [(hmarked.bits number).mpr hmem] at hclear
      cases hclear
    · exact (hmarked.bits smaller).mp (hbefore smaller (Nat.zero_le _) hsmaller)
  · rw [bitmapGet_eq, map_eq_none_iff, firstFree_eq_head?, head?_eq_none_iff] at hnone
    by_contra hmem
    have hclear : number ∈ clearBits (bitOf final.bytes) NODE_NUMBERS :=
      mem_clearBits.mpr ⟨hnum, Bool.eq_false_of_not_eq_true (mt (hmarked.bits number).mp hmem)⟩
    rw [hnone] at hclear
    exact not_mem_nil hclear

/-- A number that is free again is handed out before new ones. -/
theorem run_numbers_firstFit_again :
    ∃ final outs, run numberStep ⟨fun _ ↦ 0, []⟩ [.get, .get, .free 0, .get] = some (final, outs) ∧
      outs = [0, 1, 0, 0] ∧ final.outstanding.Nodup := by
  refine exists_of_any (fun _ outs ↦ outs = [0, 1, 0, 0]) (by decide +kernel)
    fun final outs hrun houts ↦ ⟨houts, ?_⟩
  exact (run_numbers_firstFit (by decide +kernel) hrun).1

end DionysOS.Filesystem.TmpfsTree
