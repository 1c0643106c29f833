import Mathlib.Algebra.Order.Ring.Nat
import Mathlib.Data.BitVec

/-!
# Bubble sort by a numeric key

`pass` is one pass over a list that exchanges neighbours whose keys increase, and `bubbleSort`
repeats it until a pass exchanges nothing. Every exchange removes one inversion, so as many passes
as there are inversions, and one more, are enough: `bubbleSort` is given exactly that much fuel and
never runs out of it. `sweeps` does the same in place, by indices.
-/

namespace DionysOS.Foundation.BubbleSort

open List Option

variable {Item : Type*} (key : Item → ℕ)

/-- One pass from the item `first` on: exchange neighbours whose keys increase, and count the
exchanges. -/
def carry : Item → List Item → List Item × ℕ
  | first, [] => ([first], 0)
  | first, second :: rest =>
      if key first < key second then
        (second :: (carry first rest).1, (carry first rest).2 + 1)
      else
        (first :: (carry second rest).1, (carry second rest).2)

def pass : List Item → List Item × ℕ
  | [] => ([], 0)
  | first :: rest => carry key first rest

/-- Repeat `pass` until it exchanges nothing. Running out of fuel is a fault. -/
def passes : ℕ → List Item → Option (List Item)
  | 0, _ => none
  | fuel + 1, items =>
      if (pass key items).2 = 0 then some (pass key items).1 else passes fuel (pass key items).1

def inversions : List Item → ℕ
  | [] => 0
  | item :: rest => rest.countP (fun other ↦ key item < key other) + inversions rest

/-- A pass by indices, over `rounds` neighbours from `index` on. An index behind the last item is a
fault. -/
def sweep : ℕ → ℕ → List Item → Option (List Item × ℕ)
  | 0, _, items => some (items, 0)
  | rounds + 1, index, items => do
      let first ← items[index]?
      let second ← items[index + 1]?
      if key first < key second then do
        let (items, changes) ← sweep rounds (index + 1) ((items.set index second).set (index + 1) first)
        some (items, changes + 1)
      else sweep rounds (index + 1) items

/-- `passes` by indices. -/
def sweeps : ℕ → List Item → Option (List Item)
  | 0, _ => none
  | fuel + 1, items => do
      let (items, changes) ← sweep key (items.length - 1) 0 items
      if changes = 0 then some items else sweeps fuel items

def bubbleSort (items : List Item) : Option (List Item) :=
  passes key (inversions key items + 1) items

theorem carry_perm (rest : List Item) : ∀ first, (carry key first rest).1.Perm (first :: rest) := by
  induction rest with
  | nil =>
    intro first
    exact .refl _
  | cons second rest ih =>
    intro first
    unfold carry
    split
    · exact ((ih first).cons second).trans (.swap first second rest)
    · exact (ih second).cons first

theorem inversions_carry (rest : List Item) : ∀ first,
    inversions key (carry key first rest).1 + (carry key first rest).2 =
      inversions key (first :: rest) := by
  induction rest with
  | nil =>
    intro first
    rfl
  | cons second rest ih =>
    intro first
    by_cases hlt : key first < key second
    · have hcount := (carry_perm key rest first).countP_eq (fun other ↦ key second < key other)
      have hih := ih first
      have hnot : ¬ key second < key first := by omega
      simp only [carry, hlt, hnot, inversions, countP_cons, decide_true, decide_false,
        if_true, Bool.false_eq_true, if_false] at hcount hih ⊢
      omega
    · have hcount := (carry_perm key rest second).countP_eq (fun other ↦ key first < key other)
      have hih := ih second
      simp only [carry, hlt, inversions, countP_cons, if_false] at hcount hih ⊢
      omega

theorem pass_perm (items : List Item) : (pass key items).1.Perm items := by
  cases items with
  | nil => exact .refl _
  | cons first rest => exact carry_perm key rest first

theorem inversions_pass (items : List Item) :
    inversions key (pass key items).1 + (pass key items).2 = inversions key items := by
  cases items with
  | nil => rfl
  | cons first rest => exact inversions_carry key rest first

theorem carry_eq_of_unchanged (rest : List Item) : ∀ first, (carry key first rest).2 = 0 →
    (carry key first rest).1 = first :: rest ∧
      (first :: rest).IsChain fun item next ↦ key next ≤ key item := by
  induction rest with
  | nil =>
    intro first _
    exact ⟨rfl, .singleton first⟩
  | cons second rest ih =>
    intro first hnone
    rw [carry] at hnone ⊢
    split at hnone
    · cases hnone
    next hle =>
      obtain ⟨hsame, hchain⟩ := ih second hnone
      rw [if_neg hle, hsame]
      exact ⟨rfl, .cons_cons (not_lt.mp hle) hchain⟩

theorem filter_carry (num : ℕ) (rest : List Item) : ∀ first,
    (carry key first rest).1.filter (key · = num) = (first :: rest).filter (key · = num) := by
  induction rest with
  | nil =>
    intro first
    rfl
  | cons second rest ih =>
    intro first
    unfold carry
    split
    · have hih := ih first
      grind
    · have hih := ih second
      grind

/-- What the sort makes of a list: its items in the order of their keys, items of equal keys in their
old order. -/
structure Sorts (items sorted : List Item) : Prop where
  perm : sorted.Perm items
  ordered : sorted.Pairwise fun item later ↦ key later ≤ key item
  stable : ∀ number, sorted.filter (key · = number) = items.filter (key · = number)

theorem passes_sorts (fuel : ℕ) : ∀ items, inversions key items < fuel →
    ∃ sorted, passes key fuel items = some sorted ∧ Sorts key items sorted := by
  induction fuel with
  | zero =>
    intro items hfuel
    omega
  | succ fuel ih =>
    intro items hfuel
    have hdecrease := inversions_pass key items
    have hstable : ∀ num, (pass key items).1.filter (key · = num) =
        items.filter (key · = num) := by
      intro num
      cases items with
      | nil => rfl
      | cons first rest => exact filter_carry key num rest first
    by_cases hnone : (pass key items).2 = 0
    · refine ⟨_, by rw [passes, if_pos hnone], pass_perm key items, ?_, hstable⟩
      cases items with
      | nil => exact .nil
      | cons first rest =>
        obtain ⟨hsame, hchain⟩ := carry_eq_of_unchanged key rest first hnone
        rw [pass, hsame]
        exact hchain.pairwise
    · obtain ⟨sorted, hpasses, hsorts⟩ := ih (pass key items).1 (by omega)
      refine ⟨sorted, ?_, hsorts.perm.trans (pass_perm key items), hsorts.ordered, fun num ↦ ?_⟩
      · rw [passes, if_neg hnone, hpasses]
      · rw [hsorts.stable, hstable]

theorem bubbleSort_perm (items : List Item) :
    ∃ sorted, bubbleSort key items = some sorted ∧ sorted.Perm items := by
  obtain ⟨sorted, hpasses, hsorts⟩ := passes_sorts key _ items (Nat.lt_succ_self _)
  exact ⟨sorted, hpasses, hsorts.perm⟩

theorem sweep_eq_carry (rest : List Item) : ∀ (front : List Item) (first : Item),
    sweep key rest.length front.length (front ++ first :: rest) =
      some (front ++ (carry key first rest).1, (carry key first rest).2) := by
  induction rest with
  | nil =>
    intro front first
    rfl
  | cons second rest ih =>
    intro front first
    have hlow : (front ++ first :: second :: rest)[front.length]? = some first := by simp
    have hhigh : (front ++ first :: second :: rest)[front.length + 1]? = some second := by simp
    rw [length_cons, sweep, hlow, hhigh, carry]
    simp only [bind_eq_bind, bind_some]
    split
    · have hswap : ((front ++ first :: second :: rest).set front.length second).set
          (front.length + 1) first = front ++ [second] ++ first :: rest := by simp
      have hrest := ih (front ++ [second]) first
      rw [length_append, length_singleton] at hrest
      rw [hswap, hrest]
      simp
    · have hrest := ih (front ++ [first]) second
      simpa using hrest

theorem sweeps_eq_passes (fuel : ℕ) : ∀ {items : List Item}, items ≠ [] →
    sweeps key fuel items = passes key fuel items := by
  induction fuel with
  | zero =>
    intro items _
    rfl
  | succ fuel ih =>
    intro items hitems
    cases items with
    | nil => exact absurd rfl hitems
    | cons first rest =>
      have hsweep := sweep_eq_carry key rest [] first
      have hnext : (carry key first rest).1 ≠ [] := by
        intro hnil
        have := (carry_perm key rest first).length_eq
        simp [hnil] at this
      simp only [nil_append, length_nil] at hsweep
      simp only [sweeps, length_cons, Nat.add_sub_cancel, hsweep, bind_eq_bind,
        bind_some, passes, pass, ih hnext]
      rfl

end DionysOS.Foundation.BubbleSort
