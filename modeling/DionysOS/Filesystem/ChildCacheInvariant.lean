import DionysOS.Filesystem.ChildCache
import Mathlib.Data.List.GetD

/-!
# Sound children arrays

In a sound state the array of a vnode is the list of its live children, filled up with `NULL`. The
search loop then finds the first child that matches, and reads one slot too many if there is none
and the array is full. A lookup changes nothing but the arrays that it allocates.
-/

namespace DionysOS.Filesystem.ChildCache

open DataStructures List Option
open Vfs (VnodeType VFS_MAX_NAME_LENGTH VNODE_MAX_DIRECTORY_ENTRIES)

/-- The array that holds the vnodes of a list, and `NULL` behind them. -/
def arrayOf (children : List Ptr) : ChildArray := fun index ↦ children.getD index NULL

section Arrays

variable {children : List Ptr} {child : Ptr} {idx : ℕ}

theorem access_arrayOf (children : List Ptr) (hidx : idx < VNODE_MAX_DIRECTORY_ENTRIES) :
    access (arrayOf children) idx = some (children.getD idx NULL) := by
  rw [access, dif_pos hidx]
  rfl

theorem take_ofFn_arrayOf (hlen : children.length ≤ VNODE_MAX_DIRECTORY_ENTRIES) :
    (ofFn (arrayOf children)).take children.length = children := by
  refine ext_getElem (by simp [hlen]) fun pos hpos hpos' ↦ ?_
  simp [arrayOf, hpos']

theorem getD_concat_of_ne {front : List Ptr} {target : Ptr} (hne : idx ≠ front.length) :
    (front ++ [target]).getD idx NULL = front.getD idx NULL := by
  rcases Nat.lt_or_gt_of_ne hne with hlt | hgt
  · rw [getD_append _ _ _ _ hlt]
  · rw [getD_eq_default _ _ hgt.le, getD_eq_default _ _ (by simp; omega)]

theorem store_arrayOf (hlen : children.length < VNODE_MAX_DIRECTORY_ENTRIES) (child : Ptr) :
    store (arrayOf children) children.length child = some (arrayOf (children ++ [child])) := by
  rw [store, dif_pos hlen]
  congr 1
  funext pos
  by_cases hpos : pos = ⟨children.length, hlen⟩
  · subst hpos
    simp [arrayOf]
  · have hne : pos.val ≠ children.length := fun h ↦ hpos (Fin.ext h)
    rw [Function.update_of_ne hpos]
    exact (getD_concat_of_ne hne).symm

theorem store_null {front : List Ptr} (hlen : front.length < VNODE_MAX_DIRECTORY_ENTRIES)
    (hfront : ∀ idx, idx ≠ front.length → children.getD idx NULL = front.getD idx NULL) :
    store (arrayOf children) front.length NULL = some (arrayOf front) := by
  rw [store, dif_pos hlen]
  congr 1
  funext pos
  by_cases hpos : pos = ⟨front.length, hlen⟩
  · subst hpos
    simp [arrayOf]
  · rw [Function.update_of_ne hpos]
    exact hfront pos fun h ↦ hpos (Fin.ext h)

theorem searchLoop_arrayOf (mem : VnodeMemory) (token : List Char) (hnull : NULL ∉ children)
    (hlen : children.length ≤ VNODE_MAX_DIRECTORY_ENTRIES) :
    ∀ (remaining idx : ℕ), idx + remaining = children.length →
      searchLoop mem (arrayOf children) token remaining idx (children.getD idx NULL) =
        match (children.drop idx).find? (matchesToken mem token) with
        | some child => some (some child)
        | none =>
            if remaining = 0 ∨ children.length < VNODE_MAX_DIRECTORY_ENTRIES then some none else none
  | 0, idx, hsum => by
      rw [drop_eq_nil_of_le (by omega)]
      simp [searchLoop]
  | remaining + 1, idx, hsum => by
      have hidx : idx < children.length := by omega
      have hrest := searchLoop_arrayOf mem token hnull hlen remaining (idx + 1) (by omega)
      rw [drop_eq_getElem_cons hidx, getD_eq_getElem _ _ hidx, searchLoop]
      have hne : children[idx] ≠ NULL := fun h ↦ hnull (h ▸ getElem_mem hidx)
      by_cases hmatch : matchesToken mem token children[idx] = true
      · rw [if_pos ⟨hne, hmatch⟩, find?_cons_of_pos hmatch]
      · rw [if_neg (fun h ↦ hmatch h.2), find?_cons_of_neg hmatch]
        by_cases hnext : idx + 1 < VNODE_MAX_DIRECTORY_ENTRIES
        · rw [access_arrayOf children hnext, bind_eq_bind, bind_some, hrest]
          have hiff : (remaining = 0 ∨ children.length < VNODE_MAX_DIRECTORY_ENTRIES) ↔
              (remaining + 1 = 0 ∨ children.length < VNODE_MAX_DIRECTORY_ENTRIES) := by omega
          simp only [hiff]
        · have hfull : access (arrayOf children) (idx + 1) = none := by
            rw [access, dif_neg hnext]
          rw [hfull, drop_eq_nil_of_le (by omega), find?_nil]
          simp only [bind_eq_bind, bind_none]
          rw [if_neg (by omega)]

theorem updateLoop_arrayOf {front : List Ptr} {target : Ptr} (htarget : target ∉ front)
    (hlen : (front ++ [target]).length < VNODE_MAX_DIRECTORY_ENTRIES) :
    ∀ (remaining idx : ℕ), idx + remaining = (front ++ [target]).length → 0 < remaining →
      updateLoop (arrayOf (front ++ [target])) target (front ++ [target]).length remaining idx =
        some (some (arrayOf front))
  | 0, idx, _, hpos => absurd hpos (lt_irrefl 0)
  | remaining + 1, idx, hsum, _ => by
      simp only [length_append, length_singleton] at hsum hlen
      have hidx : idx < VNODE_MAX_DIRECTORY_ENTRIES := by omega
      rw [updateLoop, access_arrayOf _ hidx, bind_eq_bind, bind_some]
      rcases lt_or_ge idx front.length with hlt | hge
      · have hchild : (front ++ [target]).getD idx NULL ≠ target := by
          rw [getD_append _ _ _ _ hlt, getD_eq_getElem _ _ hlt]
          exact fun h ↦ htarget (h ▸ getElem_mem hlt)
        rw [if_neg hchild]
        exact updateLoop_arrayOf htarget (by simpa using hlen) remaining (idx + 1)
          (by simp only [length_append, length_singleton]; omega) (by omega)
      · obtain rfl : idx = front.length := by omega
        have hroom : front.length < VNODE_MAX_DIRECTORY_ENTRIES := by omega
        have hcleared := @store_null (front ++ [target]) front hroom fun _ hne ↦ getD_concat_of_ne hne
        have hbehind : access (arrayOf front) (front ++ [target]).length = some NULL := by
          rw [access_arrayOf front (by simpa using hlen), getD_eq_default _ _ (by simp)]
        have hagain := @store_null front front hroom fun _ _ ↦ rfl
        rw [if_pos (by simp), hcleared]
        simp only [bind_eq_bind, bind_some, hbehind, hagain]

end Arrays

/-- The array of a vnode holds its live children in the order in which they were created, and they
know their parent. -/
structure VnodeSound (vfsRoot : Ptr) (machine : Machine) (vnode : Ptr) : Prop where
  slots : (machine.memory vnode).slots = arrayOf (machine.liveChildren vnode)
  count : (machine.memory vnode).numChildren = (machine.liveChildren vnode).length
  bound : (machine.liveChildren vnode).length ≤ VNODE_MAX_DIRECTORY_ENTRIES
  nodup : (machine.liveChildren vnode).Nodup
  child : ∀ child ∈ machine.liveChildren vnode,
    child ∈ machine.live ∧ (machine.memory child).vnodeParent = vnode ∧ child ≠ vfsRoot
  mounted : ∀ mounted, (machine.memory vnode).mountedVnode = some mounted →
    mounted ∈ machine.live ∧ (machine.memory mounted).isMounted = true

structure Sound (vfsRoot : Ptr) (machine : Machine) : Prop where
  null : NULL ∉ machine.live
  root : vfsRoot ∈ machine.live
  vnodes : ∀ vnode ∈ machine.live, VnodeSound vfsRoot machine vnode

section Invariant

variable {vfsRoot vnode : Ptr} {machine : Machine} (hsound : Sound vfsRoot machine)

include hsound

theorem Sound.cachedChildren_eq (hvnode : vnode ∈ machine.live) :
    cachedChildren machine.memory vnode = machine.liveChildren vnode := by
  rw [cachedChildren, (hsound.vnodes vnode hvnode).slots, (hsound.vnodes vnode hvnode).count]
  exact take_ofFn_arrayOf ((hsound.vnodes vnode hvnode).bound)

theorem Sound.null_notMem (hvnode : vnode ∈ machine.live) :
    NULL ∉ machine.liveChildren vnode :=
  fun h ↦ hsound.null ((hsound.vnodes vnode hvnode).child NULL h).1

theorem Sound.cacheSound : CacheSound machine := by
  intro vnode hvnode
  rw [hsound.cachedChildren_eq hvnode, (hsound.vnodes vnode hvnode).count]
  exact ⟨(hsound.vnodes vnode hvnode).bound, (hsound.vnodes vnode hvnode).nodup, hsound.null_notMem hvnode,
    fun _ ↦ Iff.rfl⟩

theorem Sound.enter_mem (hvnode : vnode ∈ machine.live) :
    enter machine.memory vnode ∈ machine.live := by
  unfold enter
  cases hmounted : (machine.memory vnode).mountedVnode with
  | none => exact hvnode
  | some mounted => exact ((hsound.vnodes vnode hvnode).mounted mounted hmounted).1

theorem Sound.mem_of_find? (hvnode : vnode ∈ machine.live) {test : Ptr → Bool} {child : Ptr}
    (hchild : (cachedChildren machine.memory (enter machine.memory vnode)).find? test = some child) :
    child ∈ machine.live := by
  have hmem := mem_of_find?_eq_some hchild
  rw [hsound.cachedChildren_eq (hsound.enter_mem hvnode)] at hmem
  exact ((hsound.vnodes _ (hsound.enter_mem hvnode)).child child hmem).1

theorem Sound.halt : Sound vfsRoot machine.halt :=
  ⟨hsound.null, hsound.root, fun vnode hvnode ↦ { hsound.vnodes vnode hvnode with }⟩

end Invariant

/-- The vnodes are the same, but some arrays have been allocated. -/
def Alike (before after : VnodeMemory) : Prop :=
  ∀ vnode, after vnode = { before vnode with vnodeChildren := (after vnode).vnodeChildren } ∧
    (after vnode).slots = (before vnode).slots

section Allocation

variable {before after : VnodeMemory} {vfsRoot : Ptr} {machine : Machine}

theorem Alike.refl (memory : VnodeMemory) : Alike memory memory := fun _ ↦ ⟨rfl, rfl⟩

theorem Alike.trans {first second third : VnodeMemory} (h : Alike first second)
    (h' : Alike second third) : Alike first third := fun vnode ↦
  ⟨by rw [(h' vnode).1, (h vnode).1], (h' vnode).2.trans (h vnode).2⟩

theorem alike_allocChildren (mem : VnodeMemory) (vnode : Ptr) :
    Alike mem (allocChildren mem vnode) := by
  intro other
  by_cases hother : other = vnode
  · subst hother
    simp [allocChildren, Vnode.slots]
  · simp [allocChildren, hother]

/-- What the two memories have in common. -/
structure Agree (before after : VnodeMemory) (vnode : Ptr) : Prop where
  vnodeParent : (after vnode).vnodeParent = (before vnode).vnodeParent
  slots : (after vnode).slots = (before vnode).slots
  numChildren : (after vnode).numChildren = (before vnode).numChildren
  mountedVnode : (after vnode).mountedVnode = (before vnode).mountedVnode
  isMounted : (after vnode).isMounted = (before vnode).isMounted
  vnodeName : (after vnode).vnodeName = (before vnode).vnodeName
  vnodeType : (after vnode).vnodeType = (before vnode).vnodeType

section Same

variable (halike : Alike before after)

include halike

theorem Alike.agree (vnode : Ptr) : Agree before after vnode := by
  obtain ⟨hrest, hslots⟩ := halike vnode
  exact ⟨by rw [hrest], hslots, by rw [hrest], by rw [hrest], by rw [hrest], by rw [hrest],
    by rw [hrest]⟩

theorem Alike.enter_eq (vnode : Ptr) :
    enter after vnode = enter before vnode := by
  rw [enter, enter, (halike.agree vnode).mountedVnode]

theorem Alike.matchesToken_eq (token : List Char) :
    matchesToken after token = matchesToken before token := by
  funext child
  rw [matchesToken, matchesToken, (halike.agree child).vnodeName]

theorem Alike.cachedChildren_eq (vnode : Ptr) :
    cachedChildren after vnode = cachedChildren before vnode := by
  rw [cachedChildren, cachedChildren, (halike.agree vnode).slots, (halike.agree vnode).numChildren]

theorem Alike.resolve_eq : ∀ (path : List (List Char)) (vnode : Ptr),
    resolve after vnode path = resolve before vnode path
  | [], vnode => by rw [resolve, resolve, halike.enter_eq]
  | token :: tokens, vnode => by
      rw [resolve, resolve, halike.enter_eq, halike.cachedChildren_eq, halike.matchesToken_eq,
        (halike.agree vnode).vnodeType]
      simp only [Alike.resolve_eq tokens]

theorem Alike.walkable_iff : ∀ (path : List (List Char)) (vnode : Ptr),
      Walkable after vnode path ↔ Walkable before vnode path
  | [], vnode => Iff.rfl
  | token :: tokens, vnode => by
      rw [Walkable, Walkable, halike.enter_eq, halike.cachedChildren_eq, halike.matchesToken_eq,
        (halike.agree vnode).vnodeType, (halike.agree _).numChildren]
      simp only [Alike.walkable_iff tokens]

end Same

theorem Sound.of_alike (hsound : Sound vfsRoot machine) (halike : Alike machine.memory after) :
    Sound vfsRoot { machine with memory := after } := by
  refine ⟨hsound.null, hsound.root, fun vnode hvnode ↦ ?_⟩
  have hold := hsound.vnodes vnode hvnode
  refine ⟨(halike.agree vnode).slots.trans hold.slots,
    (halike.agree vnode).numChildren.trans hold.count, hold.bound, hold.nodup,
    fun child hchild ↦ ?_, fun mounted hmounted ↦ ?_⟩
  · obtain ⟨hlive, hpar, hroot⟩ := hold.child child hchild
    exact ⟨hlive, (halike.agree child).vnodeParent.trans hpar, hroot⟩
  · have hbefore := (halike.agree vnode).mountedVnode.symm.trans hmounted
    obtain ⟨hlive, hflag⟩ := hold.mounted mounted hbefore
    exact ⟨hlive, (halike.agree mounted).isMounted.trans hflag⟩

end Allocation

section Lookup

variable {vfsRoot vnode : Ptr} {machine : Machine}

theorem findVnodeChild_spec (hsound : Sound vfsRoot machine) (hvnode : vnode ∈ machine.live)
    (htype : (machine.memory vnode).vnodeType = .directory) (token : List Char)
    (hroom : (machine.memory (enter machine.memory vnode)).numChildren <
        VNODE_MAX_DIRECTORY_ENTRIES ∨
      ∃ child ∈ cachedChildren machine.memory (enter machine.memory vnode),
        matchesToken machine.memory token child) :
    ∃ after, Alike machine.memory after ∧ findVnodeChild machine.memory vnode token =
      some (after, (cachedChildren machine.memory (enter machine.memory vnode)).find?
        (matchesToken machine.memory token)) := by
  let dir := enter machine.memory vnode
  let after := allocChildren machine.memory dir
  let children := machine.liveChildren dir
  have hdir : dir ∈ machine.live := hsound.enter_mem hvnode
  have halike : Alike machine.memory after := alike_allocChildren machine.memory dir
  have hentry := hsound.vnodes dir hdir
  have hslots : (after dir).slots = arrayOf children :=
    (halike.agree dir).slots.trans hentry.slots
  have hcount : (after dir).numChildren = children.length :=
    (halike.agree dir).numChildren.trans hentry.count
  have hchildren : cachedChildren machine.memory dir = children :=
    hsound.cachedChildren_eq hdir
  have hnull : NULL ∉ children := hsound.null_notMem hdir
  have hsearch := searchLoop_arrayOf after token hnull hentry.bound children.length 0 (zero_add _)
  rw [drop_zero, halike.matchesToken_eq] at hsearch
  have hfirst := access_arrayOf children (show 0 < VNODE_MAX_DIRECTORY_ENTRIES by decide)
  have hcall : findVnodeChild machine.memory vnode token =
      (searchLoop after (arrayOf children) token children.length 0 (children.getD 0 NULL)).bind
        fun found ↦ some (after, found) := by
    rw [findVnodeChild, if_neg (not_not.mpr htype)]
    change (access (after dir).slots 0).bind (fun child ↦
      (searchLoop after (after dir).slots token (after dir).numChildren 0 child).bind
        fun found ↦ some (after, found)) = _
    rw [hslots, hcount, hfirst, bind_some]
  refine ⟨after, halike, ?_⟩
  rw [hcall, hsearch, hchildren]
  cases hfind : children.find? (matchesToken machine.memory token) with
  | some child => rfl
  | none =>
    -- Nothing matches, so the array is not full.
    have hnotFull : children.length < VNODE_MAX_DIRECTORY_ENTRIES := by
      rcases hroom with hlt | ⟨child, hchild, hmatch⟩
      · rwa [hentry.count] at hlt
      · rw [hchildren] at hchild
        exact absurd hmatch (find?_eq_none.mp hfind child hchild)
    simp only [if_pos (.inr hnotFull : _ ∨ _), bind_some]

theorem followPath_spec : ∀ (path : List (List Char)) {machine : Machine} {vnode : Ptr},
    Sound vfsRoot machine → vnode ∈ machine.live → Walkable machine.memory vnode path →
    ∃ after, Alike machine.memory after ∧
      followPath machine.memory vnode path = some (after, resolve machine.memory vnode path)
  | [], machine, vnode, _, _, _ => ⟨machine.memory, .refl _, rfl⟩
  | token :: tokens, machine, vnode, hsound, hvnode, hwalk => by
      by_cases htype : (machine.memory vnode).vnodeType = .directory
      · obtain ⟨hroom, hrest⟩ := hwalk htype
        obtain ⟨after, halike, hfind⟩ := findVnodeChild_spec hsound hvnode htype token hroom
        rw [followPath, hfind, resolve, if_pos htype]
        cases hchild : (cachedChildren machine.memory (enter machine.memory vnode)).find?
            (matchesToken machine.memory token) with
        | none => exact ⟨after, halike, rfl⟩
        | some child =>
          obtain ⟨final, hfinal, hfollow⟩ := followPath_spec tokens (hsound.of_alike halike)
            (hsound.mem_of_find? hvnode hchild) ((halike.walkable_iff tokens child).mpr (hrest child hchild))
          refine ⟨final, halike.trans hfinal, ?_⟩
          rw [bind_some, ← halike.resolve_eq]
          exact hfollow
      · refine ⟨machine.memory, .refl _, ?_⟩
        rw [followPath, findVnodeChild, if_pos htype, resolve, if_neg htype]
        rfl

theorem vnodeLookup_spec (hsound : Sound vfsRoot machine) {path : List (List Char)}
    (hwalk : Walkable machine.memory (enter machine.memory vfsRoot) path) :
    ∃ after, Alike machine.memory after ∧ vnodeLookup vfsRoot machine.memory path =
      some (after, lookedUp vfsRoot machine.memory path) := by
  rw [vnodeLookup, lookedUp]
  split
  · exact ⟨machine.memory, .refl _, rfl⟩
  · exact followPath_spec path hsound (hsound.enter_mem hsound.root) hwalk

theorem resolve_mem (hsound : Sound vfsRoot machine) : ∀ (path : List (List Char)) {vnode found : Ptr},
    vnode ∈ machine.live → resolve machine.memory vnode path = some found → found ∈ machine.live
  | [], vnode, found, hvnode, hfound => by
      cases hfound
      exact hsound.enter_mem hvnode
  | token :: tokens, vnode, found, hvnode, hfound => by
      rw [resolve] at hfound
      split at hfound
      · obtain ⟨child, hchild, hrest⟩ := bind_eq_some_iff.mp hfound
        exact resolve_mem hsound tokens (hsound.mem_of_find? hvnode hchild) hrest
      · cases hfound

theorem lookedUp_mem (hsound : Sound vfsRoot machine) {path : List (List Char)} {found : Ptr}
    (hfound : lookedUp vfsRoot machine.memory path = some found) : found ∈ machine.live := by
  have hroot := hsound.enter_mem hsound.root
  unfold lookedUp at hfound
  split at hfound
  · cases hfound
    exact hroot
  · exact resolve_mem hsound path hroot hfound

end Lookup

end DionysOS.Filesystem.ChildCache
