import Mathlib.Algebra.Order.Ring.Nat
import Mathlib.Data.BitVec

/-!
# Chains of linked cells

The shape of a linked list in memory, over an arbitrary type of cells and an arbitrary successor
function. `Segment next start cells stop` says that following `next` from `start` visits exactly
`cells`, in order, and then reaches `stop`. A segment that ends in a null cell that it does not
visit is determined by its start and visits no cell twice.
-/

namespace DionysOS.Foundation.LinkedChain

open List Function

variable {Cell : Type*} {next other : Cell → Cell} {start stop null cell : Cell}
  {cells front back : List Cell}

/-- Following `next` from `start` visits exactly `cells` and then reaches `stop`. -/
def Segment (next : Cell → Cell) : Cell → List Cell → Cell → Prop
  | start, [], stop => start = stop
  | start, cell :: cells, stop => start = cell ∧ Segment next (next cell) cells stop

instance Segment.decidable [DecidableEq Cell] (next : Cell → Cell) :
    ∀ start cells stop, Decidable (Segment next start cells stop)
  | start, [], stop => inferInstanceAs (Decidable (start = stop))
  | start, cell :: cells, stop =>
      have := Segment.decidable next (next cell) cells stop
      inferInstanceAs (Decidable (start = cell ∧ Segment next (next cell) cells stop))

@[simp]
theorem segment_nil : Segment next start [] stop ↔ start = stop := Iff.rfl

@[simp]
theorem segment_cons :
    Segment next start (cell :: cells) stop ↔
      start = cell ∧ Segment next (next cell) cells stop := Iff.rfl

theorem segment_append :
    Segment next start (front ++ back) stop ↔
      ∃ mid, Segment next start front mid ∧ Segment next mid back stop := by
  induction front generalizing start with
  | nil => simp
  | cons head tail ih => simp [ih, and_assoc]

theorem Segment.congr (hseg : Segment next start cells stop)
    (hagree : ∀ cell ∈ cells, other cell = next cell) : Segment other start cells stop := by
  induction cells generalizing start with
  | nil => exact hseg
  | cons head tail ih =>
    refine ⟨hseg.1, ?_⟩
    rw [hagree head mem_cons_self]
    exact ih hseg.2 fun cell hcell ↦ hagree cell (mem_cons_of_mem _ hcell)

theorem Segment.head_eq (hseg : Segment next start (cell :: cells) stop) : start = cell :=
  hseg.1

theorem Segment.unique (hcells : Segment next start cells null) (hnull : null ∉ cells)
    (hfront : Segment next start front null) (hnullFront : null ∉ front) : cells = front := by
  induction cells generalizing start front with
  | nil =>
    cases front with
    | nil => rfl
    | cons head tail =>
      have hhead : null = head := (segment_nil.mp hcells).symm.trans hfront.1
      exact absurd (hhead ▸ mem_cons_self) hnullFront
  | cons head tail ih =>
    cases front with
    | nil =>
      have hhead : null = head := (segment_nil.mp hfront).symm.trans hcells.1
      exact absurd (hhead ▸ mem_cons_self) hnull
    | cons head' tail' =>
      obtain ⟨rfl, htail⟩ := hcells
      obtain ⟨rfl, htail'⟩ := hfront
      rw [ih htail (fun h ↦ hnull (mem_cons_of_mem _ h)) htail'
        (fun h ↦ hnullFront (mem_cons_of_mem _ h))]

/-- A segment that ends in a null cell it does not visit visits every cell once: a repeated cell
would give two different segments from that cell to the end. -/
theorem Segment.nodup (hseg : Segment next start cells null) (hnull : null ∉ cells) :
    cells.Nodup := by
  induction cells generalizing start with
  | nil => exact nodup_nil
  | cons head tail ih =>
    have hnullTail : null ∉ tail := fun h ↦ hnull (mem_cons_of_mem _ h)
    refine nodup_cons.mpr ⟨fun hmem ↦ ?_, ih hseg.2 hnullTail⟩
    obtain ⟨front, back, rfl⟩ := append_of_mem hmem
    obtain ⟨mid, -, hback⟩ := segment_append.mp hseg.2
    obtain rfl : mid = head := hback.head_eq
    have hwhole : Segment next mid (mid :: (front ++ mid :: back)) null :=
      ⟨rfl, hseg.2⟩
    have hlen := congrArg length (hwhole.unique hnull hback
      (fun h ↦ hnullTail (mem_append_right _ h)))
    simp only [length_cons, length_append] at hlen
    omega

theorem Segment.next_last (hseg : Segment next start (front ++ [cell]) stop) :
    next cell = stop := by
  obtain ⟨mid, -, hcell⟩ := segment_append.mp hseg
  exact hcell.2

theorem Segment.update_last [DecidableEq Cell] {target : Cell}
    (hseg : Segment next start (front ++ [cell]) stop) (hfresh : cell ∉ front) :
    Segment (update next cell target) start (front ++ [cell]) target := by
  obtain ⟨mid, hfront, hcell⟩ := segment_append.mp hseg
  refine segment_append.mpr ⟨mid, hfront.congr fun c hc ↦ ?_, hcell.1, by simp⟩
  rw [update_of_ne]
  rintro rfl
  exact hfresh hc

theorem Segment.update_of_notMem [DecidableEq Cell] {target : Cell}
    (hseg : Segment next start cells stop) (hcell : cell ∉ cells) :
    Segment (update next cell target) start cells stop := by
  refine hseg.congr fun c hc ↦ ?_
  rw [update_of_ne]
  rintro rfl
  exact hcell hc

theorem segment_map_range' {cellAt : ℕ → Cell} (count first : ℕ) (hstart : start = cellAt first)
    (hlinks : ∀ idx, first ≤ idx → idx < first + count →
      next (cellAt idx) = cellAt (idx + 1)) (hlast : next (cellAt (first + count)) = stop) :
    Segment next start ((range' first (count + 1)).map cellAt) stop := by
  induction count generalizing start first with
  | zero => exact ⟨hstart, hlast⟩
  | succ count ih =>
    refine ⟨hstart, ih (first + 1) ?_ (fun idx hfirst hidx ↦ ?_) ?_⟩
    · exact hlinks first le_rfl (by omega)
    · exact hlinks idx (by omega) (by omega)
    · rwa [show first + 1 + count = first + (count + 1) by omega]

/-- Entering at `start` from `before`, `next` visits exactly `cells` and leaves to `stop`; the
cell it leaves from is `last`, and `prev` undoes every one of these moves. -/
def DoubleSegment (next prev : Cell → Cell) : Cell → Cell → List Cell → Cell → Cell → Prop
  | before, start, [], last, stop => last = before ∧ start = stop
  | before, start, cell :: cells, last, stop =>
      start = cell ∧ prev cell = before ∧ DoubleSegment next prev cell (next cell) cells last stop

variable {prev otherPrev : Cell → Cell} {before last : Cell}

@[simp]
theorem doubleSegment_nil :
    DoubleSegment next prev before start [] last stop ↔ last = before ∧ start = stop := Iff.rfl

@[simp]
theorem doubleSegment_cons :
    DoubleSegment next prev before start (cell :: cells) last stop ↔
      start = cell ∧ prev cell = before ∧
        DoubleSegment next prev cell (next cell) cells last stop := Iff.rfl

theorem DoubleSegment.segment (hdouble : DoubleSegment next prev before start cells last stop) :
    Segment next start cells stop := by
  induction cells generalizing before start with
  | nil => exact hdouble.2
  | cons head tail ih => exact ⟨hdouble.1, ih hdouble.2.2⟩

theorem doubleSegment_append :
    DoubleSegment next prev before start (front ++ back) last stop ↔
      ∃ mid enter, DoubleSegment next prev before start front mid enter ∧
        DoubleSegment next prev mid enter back last stop := by
  induction front generalizing before start with
  | nil => simp
  | cons head tail ih => simp [ih, and_assoc]

theorem DoubleSegment.reverse (hdouble : DoubleSegment next prev before start cells last stop) :
    DoubleSegment prev next stop last cells.reverse start before := by
  induction cells generalizing before start with
  | nil => exact ⟨hdouble.2, hdouble.1⟩
  | cons head tail ih =>
    obtain ⟨rfl, hprev, htail⟩ := hdouble
    rw [reverse_cons]
    refine doubleSegment_append.mpr ⟨next start, start, ih htail, rfl, rfl, rfl, hprev⟩

theorem DoubleSegment.congr (hdouble : DoubleSegment next prev before start cells last stop)
    (hnext : ∀ cell ∈ cells, other cell = next cell)
    (hprev : ∀ cell ∈ cells, otherPrev cell = prev cell) :
    DoubleSegment other otherPrev before start cells last stop := by
  induction cells generalizing before start with
  | nil => exact hdouble
  | cons head tail ih =>
    have hhead : head ∈ head :: tail := mem_cons_self
    refine ⟨hdouble.1, (hprev head hhead).trans hdouble.2.1, ?_⟩
    rw [hnext head hhead]
    exact ih hdouble.2.2 (fun c hc ↦ hnext c (mem_cons_of_mem _ hc))
      (fun c hc ↦ hprev c (mem_cons_of_mem _ hc))

theorem DoubleSegment.last_eq
    (hdouble : DoubleSegment next prev before start (front ++ [cell]) last stop) :
    last = cell := by
  obtain ⟨mid, enter, -, -, -, hlast, -⟩ := doubleSegment_append.mp hdouble
  exact hlast

section Memory

variable {Node : Type*} (nextLink prevLink : Node → Cell) {nodes nodes' : Cell → Node}

/-- A segment through both links of the nodes of a memory. -/
abbrev Linked (nodes : Cell → Node) :=
  DoubleSegment (fun cell ↦ nextLink (nodes cell)) fun cell ↦ prevLink (nodes cell)

theorem Linked.congr (hlinked : Linked nextLink prevLink nodes before start cells last stop)
    (hagree : ∀ cell ∈ cells, nodes' cell = nodes cell) :
    Linked nextLink prevLink nodes' before start cells last stop :=
  DoubleSegment.congr hlinked (fun cell hcell ↦ by rw [hagree cell hcell])
    (fun cell hcell ↦ by rw [hagree cell hcell])

variable {outside : Cell}

theorem Linked.relink_first
    (hlinked : Linked nextLink prevLink nodes before start (cell :: back) last stop)
    (hback : ∀ other ∈ back, nodes' other = nodes other)
    (hnext : nextLink (nodes' cell) = nextLink (nodes cell))
    (hprev : prevLink (nodes' cell) = outside) :
    Linked nextLink prevLink nodes' outside cell (cell :: back) last stop := by
  refine ⟨rfl, hprev, ?_⟩
  simp only [hnext]
  exact Linked.congr nextLink prevLink hlinked.2.2 hback

theorem Linked.relink_last
    (hlinked : Linked nextLink prevLink nodes before start (front ++ [cell]) last stop)
    (hfront : ∀ other ∈ front, nodes' other = nodes other)
    (hprev : prevLink (nodes' cell) = prevLink (nodes cell))
    (hnext : nextLink (nodes' cell) = outside) :
    Linked nextLink prevLink nodes' before start (front ++ [cell]) cell outside := by
  obtain ⟨mid, enter, hlinked, henter, hprev', -⟩ := doubleSegment_append.mp hlinked
  exact doubleSegment_append.mpr ⟨mid, enter, Linked.congr nextLink prevLink hlinked hfront,
    henter, hprev.trans hprev', rfl, hnext⟩

end Memory

end DionysOS.Foundation.LinkedChain
