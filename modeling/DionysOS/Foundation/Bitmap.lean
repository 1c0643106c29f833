import DionysOS.Foundation.ByteRecords

/-!
# Bitmaps in bytes

Bit `position % 8` of byte `position / 8` is the bit with the number `position`. `mark` and `erase`
change one bit of one byte; the equations say what they do to the numbered bits.

The scan `firstFree` finds the head of the list of clear bits, and setting the bit it found leaves the
tail of that list. A run of scans therefore takes the clear bits in their order, each one once.
-/

namespace DionysOS.Foundation.Bitmap

open ByteRecords List Function BitVec

def bitOf (bytes : Bytes) (position : ℕ) : Bool :=
  (bytes (position / 8)).getLsbD (position % 8)

/-- `bytes[index] |= 1 << bit`. -/
def mark (bytes : Bytes) (index bit : ℕ) : Bytes :=
  Function.update bytes index (bytes index ||| 1#8 <<< bit)

/-- `bytes[index] &= ~(1 << bit)`. -/
def erase (bytes : Bytes) (index bit : ℕ) : Bytes :=
  Function.update bytes index (bytes index &&& ~~~(1#8 <<< bit))

variable {bytes others : Bytes} {idx bit position pos : ℕ}

theorem bitOf_mul_add (bytes : Bytes) (idx : ℕ) (hbit : bit < 8) :
    bitOf bytes (8 * idx + bit) = (bytes idx).getLsbD bit := by
  rw [bitOf, Nat.mul_add_div (by decide), Nat.div_eq_of_lt hbit, add_zero, Nat.mul_add_mod,
    Nat.mod_eq_of_lt hbit]

theorem getLsbD_one_shiftLeft (hbit : bit < 8) (pos : ℕ) :
    (1#8 <<< bit).getLsbD pos = (pos == bit) := by
  rw [← twoPow_eq, getLsbD_twoPow, decide_eq_true hbit, Bool.true_and]
  exact Bool.eq_iff_iff.mpr (by rw [decide_eq_true_iff, beq_iff_eq, eq_comm])

theorem bitOf_mark (bytes : Bytes) (idx : ℕ) (hbit : bit < 8) (pos : ℕ) :
    bitOf (mark bytes idx bit) pos = (bitOf bytes pos || pos == 8 * idx + bit) := by
  by_cases hidx : pos / 8 = idx
  · have hsame : (pos % 8 == bit) = (pos == 8 * idx + bit) :=
      Bool.eq_iff_iff.mpr (by simp only [beq_iff_eq]; omega)
    rw [bitOf, mark, hidx, update_self, getLsbD_or,
      getLsbD_one_shiftLeft hbit, hsame, bitOf, hidx]
  · have hother : (pos == 8 * idx + bit) = false := beq_eq_false_iff_ne.mpr (by omega)
    rw [bitOf, mark, update_of_ne hidx, hother, Bool.or_false, bitOf]

theorem bitOf_erase (bytes : Bytes) (idx : ℕ) (hbit : bit < 8) (pos : ℕ) :
    bitOf (erase bytes idx bit) pos = (bitOf bytes pos && pos != 8 * idx + bit) := by
  have hmod : pos % 8 < 8 := Nat.mod_lt _ (by decide)
  by_cases hidx : pos / 8 = idx
  · have hsame : (pos % 8 == bit) = (pos == 8 * idx + bit) :=
      Bool.eq_iff_iff.mpr (by simp only [beq_iff_eq]; omega)
    rw [bitOf, erase, hidx, update_self, getLsbD_and, getLsbD_not,
      decide_eq_true hmod, Bool.true_and, getLsbD_one_shiftLeft hbit, hsame, bitOf, hidx, bne]
  · have hother : (pos == 8 * idx + bit) = false := beq_eq_false_iff_ne.mpr (by omega)
    rw [bitOf, erase, update_of_ne hidx, bne, hother, Bool.not_false, Bool.and_true, bitOf]

variable {bits : ℕ → Bool} {limit start found : ℕ} {rest : List ℕ}

theorem firstFree_congr {bits' : ℕ → Bool} :
    ∀ {limit start : ℕ}, (∀ bit, start ≤ bit → bit < start + limit → bits' bit = bits bit) →
      firstFree bits' limit start = firstFree bits limit start
  | 0, _, _ => rfl
  | limit + 1, start, hsame => by
      have hrest : firstFree bits' limit (start + 1) = firstFree bits limit (start + 1) :=
        firstFree_congr fun bit hstart hlimit ↦ hsame bit (by omega) (by omega)
      rw [firstFree, firstFree, hsame start le_rfl (by omega), hrest]

theorem firstFree_add (bits : ℕ → Bool) (limit' : ℕ) : ∀ limit start : ℕ,
    firstFree bits (limit + limit') start =
      (firstFree bits limit start).or (firstFree bits limit' (start + limit))
  | 0, start => by rw [zero_add, add_zero, firstFree, Option.none_or]
  | limit + 1, start => by
      rw [add_right_comm, firstFree, firstFree]
      cases bits start with
      | true => simp only [if_true, firstFree_add bits limit' limit (start + 1),
          add_right_comm start 1 limit, add_assoc]
      | false => rfl

theorem firstFree_shift (bits : ℕ → Bool) (off : ℕ) : ∀ limit start : ℕ,
    firstFree bits limit (off + start) =
      (firstFree (fun bit ↦ bits (off + bit)) limit start).map (off + ·)
  | 0, _ => rfl
  | limit + 1, start => by
      rw [firstFree, firstFree, add_assoc, firstFree_shift bits off limit (start + 1)]
      cases bits (off + start) <;> rfl

def clearBits (bits : ℕ → Bool) (limit : ℕ) : List ℕ := (range limit).filter fun bit ↦ !bits bit

theorem mem_clearBits : bit ∈ clearBits bits limit ↔ bit < limit ∧ bits bit = false := by
  simp [clearBits]

theorem nodup_clearBits (bits : ℕ → Bool) (limit : ℕ) : (clearBits bits limit).Nodup :=
  nodup_range.filter _

theorem le_length_clearBits {count : ℕ} (hcount : count ≤ limit)
    (hclear : ∀ bit < count, bits bit = false) : count ≤ (clearBits bits limit).length := by
  have hsubset : range count ⊆ clearBits bits limit := by
    intro bit hbit
    have hlt := mem_range.mp hbit
    exact mem_clearBits.mpr ⟨by omega, hclear bit hlt⟩
  have hle := (subperm_of_subset nodup_range hsubset).length_le
  rwa [length_range] at hle

theorem firstFree_eq_head?_filter (bits : ℕ → Bool) : ∀ limit start : ℕ,
    firstFree bits limit start = ((range' start limit).filter fun bit ↦ !bits bit).head?
  | 0, _ => rfl
  | limit + 1, start => by
      rw [firstFree, range'_succ, firstFree_eq_head?_filter bits limit (start + 1)]
      cases hbit : bits start <;> simp [hbit]

theorem firstFree_eq_head? (bits : ℕ → Bool) (limit : ℕ) :
    firstFree bits limit 0 = (clearBits bits limit).head? := by
  rw [firstFree_eq_head?_filter, clearBits, range_eq_range']

/-- A longer scan of bits that agree as far as the shorter one went finds the same bit: the first of the
clear bits. -/
theorem firstFree_of_clearBits {bits' : ℕ → Bool} {limit' : ℕ}
    (hclear : clearBits bits limit = found :: rest) (hlimit : limit ≤ limit')
    (hsame : ∀ bit < limit, bits' bit = bits bit) : firstFree bits' limit' 0 = some found := by
  obtain ⟨further, rfl⟩ := Nat.exists_eq_add_of_le hlimit
  rw [firstFree_add, firstFree_congr fun bit _ hbit ↦ hsame bit (by omega), firstFree_eq_head?, hclear]
  rfl

theorem clearBits_update (hclear : clearBits bits limit = found :: rest) :
    clearBits (update bits found true) limit = rest := by
  have hnodup := nodup_clearBits bits limit
  rw [hclear] at hnodup
  have hfilter : clearBits (update bits found true) limit =
      (clearBits bits limit).filter fun bit ↦ bit != found := by
    rw [clearBits, clearBits, filter_filter]
    refine filter_congr fun bit _ ↦ ?_
    by_cases hbit : bit = found
    · simp [hbit]
    · simp [hbit]
  rw [hfilter, hclear, filter_cons_of_neg (by simp)]
  refine filter_eq_self.mpr fun bit hbit ↦ ?_
  exact bne_iff_ne.mpr (ne_of_mem_of_not_mem hbit (nodup_cons.mp hnodup).1)

section Runs

variable {State Request : Type*}

/-- An allocation by a scan: the bits that it sees and how many of them, the number that it returns for
a bit, and the state with the bit marked. -/
structure Scanner (Request State : Type*) where
  seen : Request → State → ℕ → Bool
  range : ℕ
  name : ℕ → ℕ
  mark : State → ℕ → State

def Scanner.allocate (scanner : Scanner Request State) (request : Request) (state : State) :
    Option (ℕ × State) :=
  (firstFree (scanner.seen request state) scanner.range 0).map fun number ↦
    (scanner.name number, scanner.mark state number)

/-- Before the limit, the scan sees the bits of a valid state, returns them by their numbers and sets
them. No bit from the limit on changes. -/
structure Scanner.Sound (scanner : Scanner Request State) (bits : State → ℕ → Bool)
    (valid : State → Prop) (limit : ℕ) : Prop where
  le : limit ≤ scanner.range
  seen : ∀ {request state bit}, valid state → bit < limit →
    scanner.seen request state bit = bits state bit
  name : ∀ {number}, number < limit → scanner.name number = number
  keeps : ∀ {state} number, valid state → valid (scanner.mark state number)
  set : ∀ {state number}, valid state → number < limit →
    bits (scanner.mark state number) = update (bits state) number true
  frame : ∀ {state number position}, valid state → number < scanner.range → limit ≤ position →
    bits (scanner.mark state number) position = bits state position

/-- One allocation for each request, from the first one on. -/
def takeEach (step : Request → State → Option (ℕ × State)) :
    List Request → State → Option (List ℕ × State)
  | [], state => some ([], state)
  | request :: requests, state => do
      let (number, state) ← step request state
      let (numbers, state) ← takeEach step requests state
      some (number :: numbers, state)

/-- Different clear bits were taken, and they are the ones that are now set. -/
structure Taken (before after : ℕ → Bool) (numbers : List ℕ) : Prop where
  nodup : numbers.Nodup
  clear : ∀ number ∈ numbers, before number = false
  set : ∀ position, after position = (before position || decide (position ∈ numbers))

theorem Taken.nil (bits : ℕ → Bool) : Taken bits bits [] :=
  ⟨nodup_nil, fun _ hnum ↦ absurd hnum not_mem_nil, fun pos ↦ by simp⟩

variable {after before : ℕ → Bool} {numbers : List ℕ}

theorem Taken.cons {num : ℕ} (hclear : before num = false)
    (htaken : Taken (update before num true) after numbers) :
    Taken before after (num :: numbers) := by
  have hother : ∀ {other}, other ∈ numbers → other ≠ num ∧ before other = false := by
    intro other hmem
    have hbit := htaken.clear other hmem
    by_cases hsame : other = num
    · rw [hsame, update_self] at hbit
      cases hbit
    · rw [update_of_ne hsame] at hbit
      exact ⟨hsame, hbit⟩
  constructor
  · exact nodup_cons.mpr ⟨fun hmem ↦ (hother hmem).1 rfl, htaken.nodup⟩
  · intro other hmem
    rcases mem_cons.mp hmem with rfl | hmem
    · exact hclear
    · exact (hother hmem).2
  · intro pos
    rw [htaken.set pos]
    by_cases hsame : pos = num
    · simp [hsame]
    · simp [hsame]

theorem Taken.subset {limit : ℕ} (htaken : Taken before after numbers)
    (hsame : ∀ pos, limit ≤ pos → after pos = before pos) :
    numbers ⊆ clearBits before limit := by
  intro num hnum
  have hclear := htaken.clear num hnum
  have hset := htaken.set num
  rw [decide_eq_true hnum, Bool.or_true] at hset
  refine mem_clearBits.mpr ⟨?_, hclear⟩
  by_contra hlimit
  rw [hsame num (not_lt.mp hlimit), hclear] at hset
  cases hset

variable {bits : State → ℕ → Bool} {valid : State → Prop} {limit : ℕ}
  {step : Request → State → Option (ℕ × State)}

theorem takeEach_frame (hframe : ∀ {request state num after}, valid state →
      step request state = some (num, after) →
        valid after ∧ ∀ pos, limit ≤ pos → bits after pos = bits state pos) :
    ∀ {requests state numbers after}, valid state →
      takeEach step requests state = some (numbers, after) →
        numbers.length = requests.length ∧ valid after ∧
          ∀ pos, limit ≤ pos → bits after pos = bits state pos
  | [], state, numbers, after, hvalid, hrun => by
      cases hrun
      exact ⟨rfl, hvalid, fun _ _ ↦ rfl⟩
  | request :: requests, state, numbers, after, hvalid, hrun => by
      obtain ⟨⟨num, mid⟩, hstep, hrun⟩ := Option.bind_eq_some_iff.mp hrun
      obtain ⟨⟨others, last⟩, hrest, hrun⟩ := Option.bind_eq_some_iff.mp hrun
      cases hrun
      obtain ⟨hmiddle, hfirst⟩ := hframe hvalid hstep
      obtain ⟨hlen, hlast, hothers⟩ := takeEach_frame hframe hmiddle hrest
      exact ⟨congrArg (· + 1) hlen, hlast, fun pos hpos ↦
        (hothers pos hpos).trans (hfirst pos hpos)⟩

theorem takeEach_of_le (hstep : ∀ {request state num rest}, valid state →
      clearBits (bits state) limit = num :: rest →
        ∃ after, step request state = some (num, after) ∧ valid after ∧
          bits after = update (bits state) num true) :
    ∀ {requests state}, valid state → requests.length ≤ (clearBits (bits state) limit).length →
      ∃ numbers after, takeEach step requests state = some (numbers, after) ∧
        Taken (bits state) (bits after) numbers
  | [], state, _, _ => ⟨[], state, rfl, Taken.nil _⟩
  | request :: requests, state, hvalid, hlen => by
      cases hclear : clearBits (bits state) limit with
      | nil => simp [hclear] at hlen
      | cons num rest =>
        obtain ⟨mid, hfirst, hmiddle, hbits⟩ := @hstep request state num rest hvalid hclear
        have hrest : clearBits (bits mid) limit = rest := hbits ▸ clearBits_update hclear
        rw [hclear] at hlen
        obtain ⟨numbers, after, hrun, htaken⟩ := @takeEach_of_le hstep requests mid hmiddle
          (by rw [hrest]; exact Nat.le_of_succ_le_succ hlen)
        have hbit : bits state num = false :=
          (mem_clearBits.mp (hclear ▸ mem_cons_self)).2
        exact ⟨num :: numbers, after, by simp [takeEach, hfirst, hrun],
          Taken.cons hbit (hbits ▸ htaken)⟩

theorem or_beq_eq_update (bits : ℕ → Bool) (num position : ℕ) :
    (bits position || position == num) = update bits num true position := by
  by_cases hpos : position = num
  · simp [hpos]
  · simp [hpos]

namespace Scanner.Sound

variable {scanner : Scanner Request State} (hsound : scanner.Sound bits valid limit)
include hsound

theorem allocate_of_clear {state : State} (hvalid : valid state) {num : ℕ} {rest : List ℕ}
    (hclear : clearBits (bits state) limit = num :: rest) (request : Request) :
    scanner.allocate request state = some (num, scanner.mark state num) ∧
      bits (scanner.mark state num) = update (bits state) num true := by
  have hnum : num < limit := (mem_clearBits.mp (hclear ▸ mem_cons_self)).1
  have hfound := firstFree_of_clearBits hclear hsound.le fun bit hbit ↦
    @hsound.seen request state bit hvalid hbit
  refine ⟨?_, hsound.set hvalid hnum⟩
  rw [Scanner.allocate, hfound, Option.map_some, hsound.name hnum]

variable (hstep : ∀ {request state}, valid state → step request state = scanner.allocate request state)
include hstep

theorem takeEach_frame {requests : List Request} {state after : State} (hvalid : valid state)
    (hrun : takeEach step requests state = some (numbers, after)) :
    numbers.length = requests.length ∧ valid after ∧
      ∀ position, limit ≤ position → bits after position = bits state position := by
  refine Bitmap.takeEach_frame (fun hvalid hallocate ↦ ?_) hvalid hrun
  rw [hstep hvalid] at hallocate
  obtain ⟨found, hfound, hres⟩ := Option.map_eq_some_iff.mp hallocate
  cases hres
  have hrange := (firstFree_eq_some hfound).2.2.1
  rw [zero_add] at hrange
  exact ⟨hsound.keeps found hvalid, fun position hpos ↦ hsound.frame hvalid hrange hpos⟩

/-- A run takes different clear bits and sets exactly these if and only if there are enough clear bits
before the limit. -/
theorem taken_takeEach_iff {requests : List Request} {state : State} (hvalid : valid state) :
    (∃ numbers after, takeEach step requests state = some (numbers, after) ∧
        Taken (bits state) (bits after) numbers) ↔
      requests.length ≤ (clearBits (bits state) limit).length := by
  constructor
  · rintro ⟨numbers, after, hrun, htaken⟩
    obtain ⟨hlen, -, hsame⟩ := hsound.takeEach_frame hstep hvalid hrun
    rw [← hlen]
    exact (subperm_of_subset htaken.nodup (htaken.subset hsame)).length_le
  · refine takeEach_of_le (fun {request state num rest} hvalid hclear ↦ ?_) hvalid
    obtain ⟨hallocate, hbits⟩ := hsound.allocate_of_clear hvalid hclear request
    exact ⟨_, (hstep hvalid).trans hallocate, hsound.keeps num hvalid, hbits⟩

end Scanner.Sound

end Runs

end DionysOS.Foundation.Bitmap
