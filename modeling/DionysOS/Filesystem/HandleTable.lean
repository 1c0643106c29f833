import DionysOS.DataStructures.SinglyLinkedList
import Mathlib.Data.List.Range

/-!
# The handle table of a process

`open` and `close` of `vfs.c` with `vnode_open`, `vnode_close` and `get_new_file_handle`. The table
has three parts that should agree: a list of handles, a bitmap of handle identifiers and a counter.
`open` takes an identifier from the bitmap before it looks the path up, and `close` updates only the
list.

The list is the sequence of handles from its head on; only insertions at the head and removals of
the head happen to it. What `vnode_lookup` finds is a parameter. `none` is a panic or a loop that
does not end.
-/

namespace DionysOS.Filesystem.HandleTable

open Foundation.PartialMachine DataStructures List Option BitVec Bool

def KERN_NOT_FOUND : ℤ := -5
def KERN_MAX_REACHED : ℤ := -11

/-- `struct virtual_handle` of the process. -/
structure VirtualHandle where
  handleId : ℕ
  vnode : Ptr
  offset : ℕ
deriving DecidableEq, Repr

structure VirtualHandleList where
  handleList : List VirtualHandle
  numHandles : ℕ
  handleIdBitmap : BitVec 64
deriving DecidableEq, Repr

/-- What `open` and `close` read of the vnodes. -/
structure Vnodes where
  vnodeLookup : List Char → Option Ptr
  filesystemInfo : Ptr → Ptr
  mountedVnode : Ptr → Option Ptr

/-- The table, and the reference counts that `open` and `close` change. -/
structure State where
  list : VirtualHandleList
  vnodeRefcount : Ptr → ℕ
  filesystemReferenceCount : Ptr → ℕ

/-- The loop of `get_new_file_handle`: the first clear bit from `i` on. -/
def findClearBit (bitmap : BitVec 64) : ℕ → ℕ → Option ℕ
  | 0, _ => none
  | remaining + 1, i =>
      if bitmap &&& (1#64 <<< i) = 0#64 then some i else findClearBit bitmap remaining (i + 1)

def getNewFileHandle (list : VirtualHandleList) : VirtualHandleList × ℤ :=
  match findClearBit list.handleIdBitmap 64 0 with
  | some i => ({ list with handleIdBitmap := list.handleIdBitmap ||| (1#64 <<< i) }, i)
  | none => (list, KERN_MAX_REACHED)

/-- Add `change` to a counter of `width` bits of the object at `address`. -/
def adjust (counts : Ptr → ℕ) (address : Ptr) (width change : ℕ) : Ptr → ℕ :=
  Function.update counts address ((counts address + change) % 2 ^ width)

def vnodeOpen (vnodes : Vnodes) (state : State) (path : List Char) : State × ℤ :=
  let (list, ret) := getNewFileHandle state.list
  if ret < 0 then ({ state with list := list }, KERN_MAX_REACHED)
  else
    match vnodes.vnodeLookup path with
    | none => ({ state with list := list }, KERN_NOT_FOUND)
    | some vnode =>
        let filesystem :=
          if vnodes.filesystemInfo vnode ≠ NULL then
            adjust state.filesystemReferenceCount (vnodes.filesystemInfo vnode) 64 1
          else state.filesystemReferenceCount
        let handle : VirtualHandle := ⟨ret.toNat, (vnodes.mountedVnode vnode).getD vnode, 0⟩
        (⟨⟨handle :: list.handleList, list.numHandles + 1, list.handleIdBitmap⟩,
          adjust state.vnodeRefcount vnode 16 1, filesystem⟩, ret)

/-- `open`. -/
def openPath (vnodes : Vnodes) (state : State) (path : List Char) : State × ℤ :=
  let (state, handle) := vnodeOpen vnodes state path
  if handle < 0 then (state, KERN_NOT_FOUND) else (state, handle)

/-- The loop of `vnode_close`. Nothing moves `node` on, so it is the head of the list in every
round. -/
def closeLoop (vnodes : Vnodes) (state : State) (handle : ℕ) : ℕ → Option State
  | 0 => none
  | fuel + 1 =>
      match state.list.handleList with
      | [] => none
      | virtualHandle :: rest =>
          if virtualHandle.handleId = handle then
            let vnode := virtualHandle.vnode
            let filesystem :=
              if vnodes.filesystemInfo vnode ≠ NULL then
                adjust state.filesystemReferenceCount (vnodes.filesystemInfo vnode) 64 (2 ^ 64 - 1)
              else state.filesystemReferenceCount
            some ⟨{ state.list with handleList := rest },
              adjust state.vnodeRefcount vnode 16 (2 ^ 16 - 1), filesystem⟩
          else closeLoop vnodes state handle fuel

/-- `close` and `vnode_close`, with a round for every node. -/
def close (vnodes : Vnodes) (state : State) (handle : ℕ) : Option State :=
  closeLoop vnodes state handle (state.list.handleList.length + 1)

inductive Operation where
  | openPath (path : List Char)
  | close (handle : ℕ)
deriving DecidableEq, Repr

/-- One call, with what `open` returns. -/
def step (vnodes : Vnodes) (state : State) : Operation → Option (State × ℤ)
  | .openPath path => some (openPath vnodes state path)
  | .close handle => (close vnodes state handle).map fun next ↦ (next, 0)

def handleIds (state : State) : List ℕ := state.list.handleList.map VirtualHandle.handleId

/-- The three parts of the table agree. -/
structure Consistent (state : State) : Prop where
  bitmap : ∀ id, state.list.handleIdBitmap.getLsbD id = true ↔ id ∈ handleIds state
  nodup : (handleIds state).Nodup
  count : state.list.numHandles = state.list.handleList.length

/-- What a call of `open` promises beside that. -/
structure OpenPromise (vnodes : Vnodes) (before : State) (path : List Char) (after : State)
    (result : ℤ) : Prop where
  limit : result < 0 → (vnodes.vnodeLookup path).isSome → before.list.handleList.length = 64
  unchanged : result < 0 → after = before

/-- A call keeps the table consistent and does what it promises. -/
def Correct (vnodes : Vnodes) (before : State) : Operation → State → ℤ → Prop
  | .openPath path, after, result => Consistent after ∧ OpenPromise vnodes before path after result
  | .close _, after, _ => Consistent after

/-- The condition on a call: an `open` of a path that exists, or of any path when no identifier is
left. -/
def Meets (vnodes : Vnodes) (state : State) : Operation → Prop
  | .openPath path => vnodes.vnodeLookup path ≠ none ∨ state.list.handleIdBitmap = BitVec.allOnes 64
  | .close _ => False

instance (vnodes : Vnodes) (state : State) : ∀ operation, Decidable (Meets vnodes state operation)
  | .openPath _ => instDecidableOr
  | .close _ => instDecidableFalse

section Bitmap

variable {bitmap : BitVec 64} {i : ℕ}

theorem and_shiftLeft_eq_zero (bitmap : BitVec 64) (hi : i < 64) :
    bitmap &&& (1#64 <<< i) = 0#64 ↔ bitmap.getLsbD i = false := by
  rw [← twoPow_eq, and_twoPow]
  cases hbit : bitmap.getLsbD i
  · simp
  · simp only [if_true, true_eq_false, iff_false]
    intro hzero
    have hset := congrArg (getLsbD · i) hzero
    simp [hi] at hset

theorem getLsbD_setBit (bitmap : BitVec 64) (hi : i < 64) (j : ℕ) :
    (bitmap ||| (1#64 <<< i)).getLsbD j = true ↔ bitmap.getLsbD j = true ∨ j = i := by
  rw [← twoPow_eq, getLsbD_or, getLsbD_twoPow]
  simp only [or_eq_true, and_eq_true, decide_eq_true_eq]
  constructor
  · rintro (h | ⟨-, rfl⟩)
    · exact .inl h
    · exact .inr rfl
  · rintro (h | rfl)
    · exact .inl h
    · exact .inr ⟨hi, rfl⟩

theorem findClearBit_spec (bitmap : BitVec 64) : ∀ (remaining i : ℕ), i + remaining = 64 →
    match findClearBit bitmap remaining i with
    | some found => found < 64 ∧ bitmap.getLsbD found = false
    | none => ∀ j, i ≤ j → j < 64 → bitmap.getLsbD j = true
  | 0, i, hsum => fun j hij hj ↦ by omega
  | remaining + 1, i, hsum => by
      have hi : i < 64 := by omega
      have hrest := findClearBit_spec bitmap remaining (i + 1) (by omega)
      by_cases hclear : bitmap.getLsbD i = false
      · have htest := (and_shiftLeft_eq_zero bitmap hi).mpr hclear
        simp only [findClearBit, if_pos htest]
        exact ⟨hi, hclear⟩
      · have htest := mt (and_shiftLeft_eq_zero bitmap hi).mp hclear
        simp only [findClearBit, if_neg htest]
        cases hfound : findClearBit bitmap remaining (i + 1) with
        | some found => simpa [hfound] using hrest
        | none =>
          simp only [hfound] at hrest
          intro j hij hj
          rcases eq_or_lt_of_le hij with rfl | hlt
          · simpa using hclear
          · exact hrest j hlt hj

theorem findClearBit_eq_none_iff (bitmap : BitVec 64) :
    findClearBit bitmap 64 0 = none ↔ bitmap = allOnes 64 := by
  have hspec := findClearBit_spec bitmap 64 0 rfl
  cases hfound : findClearBit bitmap 64 0 with
  | some found =>
    simp only [hfound] at hspec
    refine iff_of_false (by simp) ?_
    rintro rfl
    have hset := hspec.2
    simp only [getLsbD_allOnes, hspec.1, decide_true, true_eq_false] at hset
  | none =>
    simp only [hfound] at hspec
    refine iff_of_true rfl ?_
    refine eq_of_getLsbD_eq fun j hj ↦ ?_
    rw [hspec j (Nat.zero_le j) hj, getLsbD_allOnes, decide_eq_true hj]

end Bitmap

section Calls

variable {vnodes : Vnodes} {state next : State} {path : List Char}

theorem Consistent.length_eq (hcons : Consistent state)
    (hfull : state.list.handleIdBitmap = allOnes 64) : state.list.handleList.length = 64 := by
  have hperm : (handleIds state).Perm (range 64) := by
    refine (perm_ext_iff_of_nodup hcons.nodup nodup_range).mpr fun id ↦ ?_
    rw [← hcons.bitmap id, hfull, getLsbD_allOnes, mem_range, decide_eq_true_eq]
  simpa [handleIds] using hperm.length_eq

theorem openPath_of_full (hfull : state.list.handleIdBitmap = allOnes 64) :
    openPath vnodes state path = (state, KERN_NOT_FOUND) := by
  have hnone := (findClearBit_eq_none_iff _).mpr hfull
  simp [openPath, vnodeOpen, getNewFileHandle, hnone, KERN_MAX_REACHED]

theorem openPath_of_not_full (hroom : state.list.handleIdBitmap ≠ allOnes 64) :
    ∃ id, id < 64 ∧ state.list.handleIdBitmap.getLsbD id = false ∧
      (vnodes.vnodeLookup path = none → openPath vnodes state path =
        ({ state with list :=
            { state.list with handleIdBitmap := state.list.handleIdBitmap ||| (1#64 <<< id) } },
          KERN_NOT_FOUND)) ∧
      (vnodes.vnodeLookup path ≠ none → ∃ handle after,
        openPath vnodes state path = (after, (id : ℤ)) ∧ handle.handleId = id ∧
        after.list = ⟨handle :: state.list.handleList, state.list.numHandles + 1,
          state.list.handleIdBitmap ||| (1#64 <<< id)⟩) := by
  have hspec := findClearBit_spec state.list.handleIdBitmap 64 0 rfl
  cases hfound : findClearBit state.list.handleIdBitmap 64 0 with
  | none => exact absurd ((findClearBit_eq_none_iff _).mp hfound) hroom
  | some id =>
    simp only [hfound] at hspec
    have hpos : ¬ (id : ℤ) < 0 := by omega
    refine ⟨id, hspec.1, hspec.2, fun hlookup ↦ ?_, fun hlookup ↦ ?_⟩
    · simp [openPath, vnodeOpen, getNewFileHandle, hfound, hlookup, hpos, KERN_NOT_FOUND]
    · obtain ⟨vnode, hvnode⟩ := ne_none_iff_exists'.mp hlookup
      simp only [openPath, vnodeOpen, getNewFileHandle, hfound, hvnode, if_neg hpos]
      exact ⟨_, _, rfl, Int.toNat_natCast id, rfl⟩

theorem closeLoop_eq (handle : ℕ) : ∀ fuel : ℕ,
    closeLoop vnodes state handle (fuel + 1) = closeLoop vnodes state handle 1
  | 0 => rfl
  | fuel + 1 => by
      have hrest := closeLoop_eq handle fuel
      rw [closeLoop]
      cases hlist : state.list.handleList with
      | nil => simp [closeLoop, hlist]
      | cons virtualHandle rest =>
        by_cases hhandle : virtualHandle.handleId = handle
        · simp [closeLoop, hlist, hhandle]
        · simp only [if_neg hhandle]
          exact hrest

theorem close_eq_some {handle : ℕ} (hclose : close vnodes state handle = some next) :
    ∃ virtualHandle rest, state.list.handleList = virtualHandle :: rest ∧
      virtualHandle.handleId = handle ∧
      next.list = { state.list with handleList := rest } := by
  rw [close, closeLoop_eq] at hclose
  cases hlist : state.list.handleList with
  | nil => simp [closeLoop, hlist] at hclose
  | cons virtualHandle rest =>
    by_cases hhandle : virtualHandle.handleId = handle
    · simp only [closeLoop, hlist, if_pos hhandle, some.injEq] at hclose
      subst hclose
      exact ⟨virtualHandle, rest, rfl, hhandle, by simp⟩
    · simp [closeLoop, hlist, hhandle] at hclose

theorem Consistent.cons (hcons : Consistent state) {handle : VirtualHandle}
    (hid : handle.handleId < 64) (hfree : state.list.handleIdBitmap.getLsbD handle.handleId = false)
    (hlist : next.list = ⟨handle :: state.list.handleList, state.list.numHandles + 1,
      state.list.handleIdBitmap ||| (1#64 <<< handle.handleId)⟩) : Consistent next := by
  have hids : handleIds next = handle.handleId :: handleIds state := by simp [handleIds, hlist]
  refine ⟨fun id ↦ ?_, ?_, ?_⟩
  · rw [hids, hlist, getLsbD_setBit _ hid, hcons.bitmap id, mem_cons]
    exact or_comm
  · rw [hids, nodup_cons, ← hcons.bitmap]
    exact ⟨by simp [hfree], hcons.nodup⟩
  · simp [hlist, hcons.count]

theorem correct_of_meets {op : Operation} (hcons : Consistent state)
    (hmeets : Meets vnodes state op) :
    ∃ next result, step vnodes state op = some (next, result) ∧
      Correct vnodes state op next result := by
  cases op with
  | close handle => exact absurd hmeets id
  | openPath path =>
    by_cases hfull : state.list.handleIdBitmap = allOnes 64
    · refine ⟨state, KERN_NOT_FOUND, by rw [step, openPath_of_full hfull], hcons, ?_⟩
      exact ⟨fun _ _ ↦ hcons.length_eq hfull, fun _ ↦ rfl⟩
    · have hlookup : vnodes.vnodeLookup path ≠ none := hmeets.resolve_right hfull
      obtain ⟨id, hid, hfree, -, hopen⟩ := openPath_of_not_full hfull
      obtain ⟨handle, after, hcall, rfl, hlist⟩ := hopen hlookup
      refine ⟨after, handle.handleId, by rw [step, hcall], hcons.cons hid hfree hlist, ?_, ?_⟩
      · intro hnegative
        omega
      · intro hnegative
        omega

theorem not_correct_of_not_meets {op : Operation} {result : ℤ}
    (hcons : Consistent state) (hmeets : ¬ Meets vnodes state op)
    (hstep : step vnodes state op = some (next, result)) :
    ¬ Correct vnodes state op next result := by
  cases op with
  | openPath path =>
    -- The path does not exist, and its identifier stays marked.
    obtain ⟨hlookup, hroom⟩ := not_or.mp hmeets
    obtain ⟨id, hid, hfree, hopen, -⟩ := openPath_of_not_full hroom
    rw [step, hopen (not_not.mp hlookup)] at hstep
    obtain ⟨rfl, rfl⟩ := hstep
    rintro ⟨-, hpromise⟩
    have hsame := congrArg (fun state ↦ state.list.handleIdBitmap.getLsbD id)
      (hpromise.unchanged (by decide))
    have hset := (getLsbD_setBit state.list.handleIdBitmap hid id).mpr (.inr rfl)
    simp only [hset, hfree, true_eq_false] at hsame
  | close handle =>
    -- The identifier of the closed handle stays marked.
    obtain ⟨after, hclose, hafter⟩ := map_eq_some_iff.mp hstep
    simp only [Prod.mk.injEq] at hafter
    obtain ⟨rfl, rfl⟩ := hafter
    obtain ⟨virtualHandle, rest, hlist, -, hnext⟩ := close_eq_some hclose
    intro hafter
    have hafter : Consistent after := hafter
    have hids : handleIds state = virtualHandle.handleId :: handleIds after := by
      simp [handleIds, hlist, hnext]
    have hmarked : after.list.handleIdBitmap.getLsbD virtualHandle.handleId = true := by
      rw [hnext]
      exact (hcons.bitmap _).mpr (hids ▸ mem_cons_self)
    have hnodup := hcons.nodup
    rw [hids, nodup_cons] at hnodup
    exact hnodup.1 ((hafter.bitmap _).mp hmarked)

end Calls

def VirtualHandleList.empty : VirtualHandleList := ⟨[], 0, 0#64⟩

theorem consistent_empty {state : State} (hstate : state.list = VirtualHandleList.empty) :
    Consistent state := by
  refine ⟨fun id ↦ ?_, ?_, ?_⟩ <;> simp [handleIds, hstate, VirtualHandleList.empty]

/-- **The handle table.** A run of calls that meet the condition returns and leaves a consistent
table; the next call returns and is correct if and only if it meets the condition as well. -/
theorem run_consistent (vnodes : Vnodes) {initial : State}
    (hinitial : initial.list = VirtualHandleList.empty) {operations : List Operation}
    (hmeets : Guarded (step vnodes) (Meets vnodes) initial operations) :
    ∃ final outs, run (step vnodes) initial operations = some (final, outs) ∧ Consistent final ∧
      ∀ operation, Meets vnodes final operation ↔ ∃ next result,
        step vnodes final operation = some (next, result) ∧
          Correct vnodes final operation next result := by
  have hstep : ∀ state operation, Consistent state → Meets vnodes state operation →
      ∃ next out, step vnodes state operation = some (next, out) ∧ Consistent next := by
    intro state operation hcons hmeets
    obtain ⟨next, result, hcall, hcorrect⟩ := correct_of_meets hcons hmeets
    refine ⟨next, result, hcall, ?_⟩
    cases operation with
    | openPath path => exact hcorrect.1
    | close handle => exact hcorrect
  obtain ⟨final, outs, hrun, hcons⟩ :=
    run_invariant hstep operations initial (consistent_empty hinitial) hmeets
  refine ⟨final, outs, hrun, hcons, fun operation ↦ ⟨correct_of_meets hcons, ?_⟩⟩
  rintro ⟨next, result, hcall, hcorrect⟩
  by_contra hnot
  exact not_correct_of_not_meets hcons hnot hcall hcorrect

/-- Vnodes with one file, `a`. -/
def oneFile : Vnodes where
  vnodeLookup path := if path = ['/', 'a'] then some 4096 else none
  filesystemInfo _ := NULL
  mountedVnode _ := none

def newTable : State := ⟨VirtualHandleList.empty, fun _ ↦ 0, fun _ ↦ 0⟩

/-- Two handles on the file. -/
theorem run_consistent_twoHandles : ∃ final outs,
    run (step oneFile) newTable [.openPath ['/', 'a'], .openPath ['/', 'a']] = some (final, outs) ∧
      Consistent final := by
  obtain ⟨final, outs, hrun, hcons, -⟩ := run_consistent oneFile rfl
    (show Guarded (step oneFile) (Meets oneFile) newTable
      [.openPath ['/', 'a'], .openPath ['/', 'a']] by decide +kernel)
  exact ⟨final, outs, hrun, hcons⟩

/-- A handle that is closed again leaves its bit in the bitmap and itself in the count, and an
`open` that fails leaves a bit in the bitmap. -/
theorem run_not_consistent :
    (∃ final outs,
      run (step oneFile) newTable [.openPath ['/', 'a'], .close 0] = some (final, outs) ∧
        ¬ Consistent final) ∧
    (∃ final outs, run (step oneFile) newTable [.openPath ['/', 'b']] = some (final, outs) ∧
      ¬ Consistent final) := by
  refine ⟨?_, ?_⟩
  · exact exists_of_any (fun final _ ↦ final.list.numHandles ≠ final.list.handleList.length)
      (by decide +kernel) fun _ _ _ hcount hcons ↦ hcount hcons.count
  · refine exists_of_any (fun final _ ↦ handleIds final = [] ∧ final.list.handleIdBitmap = 1)
      (by decide +kernel) ?_
    rintro final - - ⟨hids, hbitmap⟩ hcons
    have hmarked := hcons.bitmap 0
    simp [hids, hbitmap] at hmarked

end DionysOS.Filesystem.HandleTable
