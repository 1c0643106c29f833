import DionysOS.Filesystem.CanonicalPath

/-!
# Lookups and climbs in a tree

In a tree, the search of a directory for the name of a child returns this child, and a lookup returns
only vnodes that have names. The climb from such a vnode writes its names, the last one first, each
behind a slash. Where a file system is mounted on the root it ends with a slash.
-/

namespace DionysOS.Filesystem.CanonicalPath

open DataStructures Definitions.Strings ChildCache List Option
open Vfs (VFS_MAX_NAME_LENGTH VNODE_MAX_DIRECTORY_ENTRIES)

variable {vfsRoot root : Ptr} {memory mem : VnodeMemory}

variable {child dir found : Ptr} {idx fuel size : ℕ} {after : VnodeMemory}
  {names : List (List Char)} {path str1 str2 : List Char}

theorem access_isSome {children : ChildArray} {later : ℕ} (hle : idx ≤ later)
    (hlater : access children later = some child) : ∃ other, access children idx = some other := by
  rw [access] at hlater
  split at hlater
  · rename_i hlt
    exact ⟨_, by rw [access, dif_pos (hle.trans_lt hlt)]⟩
  · cases hlater

theorem searchLoop_eq {children : ChildArray} {token : List Char} {target : Ptr}
    (hnull : target ≠ NULL) (hmatch : matchesToken mem token target = true) :
    ∀ {remaining idx : ℕ} {child : Ptr}, access children idx = some child →
      (∃ later, idx ≤ later ∧ later < idx + remaining ∧ access children later = some target) →
      (∀ later other, idx ≤ later → later < idx + remaining →
        access children later = some other → other ≠ NULL →
        matchesToken mem token other = true → other = target) →
      searchLoop mem children token remaining idx child = some (some target)
  | 0, idx, child, _, ⟨later, hle, hlt, _⟩, _ => by omega
  | remaining + 1, idx, child, hchild, ⟨later, hle, hlt, hlater⟩, honly => by
      by_cases hfound : child ≠ NULL ∧ matchesToken mem token child = true
      · rw [searchLoop, if_pos hfound,
          honly idx child (le_refl _) (by omega) hchild hfound.1 hfound.2]
      · have hne : idx ≠ later := by
          rintro rfl
          rw [hchild] at hlater
          cases hlater
          exact hfound ⟨hnull, hmatch⟩
        obtain ⟨next, hnext⟩ := access_isSome (show idx + 1 ≤ later by omega) hlater
        rw [searchLoop, if_neg hfound, hnext]
        exact searchLoop_eq hnull hmatch hnext ⟨later, by omega, by omega, hlater⟩
          fun later' other hle' hlt' ↦ honly later' other (by omega) (by omega)

theorem searchLoop_sound {children : ChildArray} {token : List Char} {target : Ptr} :
    ∀ {remaining idx : ℕ} {child : Ptr}, access children idx = some child →
      searchLoop mem children token remaining idx child = some (some target) →
      target ≠ NULL ∧ ∃ later < idx + remaining, access children later = some target
  | 0, idx, child, _, hsearch => by cases hsearch
  | remaining + 1, idx, child, hchild, hsearch => by
      rw [searchLoop] at hsearch
      split at hsearch
      · rename_i hfound
        obtain rfl := some.inj (some.inj hsearch)
        exact ⟨hfound.1, idx, by omega, hchild⟩
      · obtain ⟨next, hnext, hsearch⟩ := bind_eq_some_iff.mp hsearch
        obtain ⟨hnull, later, hlt, hlater⟩ := searchLoop_sound hnext hsearch
        exact ⟨hnull, later, by omega, hlater⟩

theorem allocChildren_of_child (hnull : child ≠ NULL)
    (hchild : access (memory dir).slots idx = some child) :
    allocChildren memory dir = memory := by
  have hsome : (memory dir).vnodeChildren ≠ none := by
    intro hnone
    rw [access, Vnode.slots, hnone] at hchild
    split at hchild
    · exact hnull (some.inj hchild).symm
    · cases hchild
  obtain ⟨children, hchildren⟩ := ne_none_iff_exists'.mp hsome
  rw [allocChildren, Vnode.slots, hchildren, getD_some, ← hchildren]
  exact Function.update_eq_self dir memory

theorem findVnodeChild_sound {token : List Char}
    (hfind : findVnodeChild mem dir token = some (after, some child)) :
    after = mem ∧ Child mem (enter mem dir) child := by
  rw [findVnodeChild] at hfind
  split at hfind
  · cases hfind
  · obtain ⟨first, hfirst, hfind⟩ := bind_eq_some_iff.mp hfind
    obtain ⟨found, hsearch, hfind⟩ := bind_eq_some_iff.mp hfind
    cases hfind
    have hslots : (allocChildren mem (enter mem dir) (enter mem dir)).slots =
        (mem (enter mem dir)).slots := by
      simp [allocChildren, Vnode.slots]
    have hcount : (allocChildren mem (enter mem dir)
        (enter mem dir)).numChildren = (mem (enter mem dir)).numChildren := by
      simp [allocChildren]
    obtain ⟨hnull, idx, hidx, hchild⟩ := searchLoop_sound hfirst hsearch
    rw [hslots] at hchild
    exact ⟨allocChildren_of_child hnull hchild, hnull, idx, by omega, hchild⟩

theorem CachedTree.findVnodeChild_eq (htree : CachedTree vfsRoot memory)
    (hwalk : Walk vfsRoot memory dir names)
    (hchild : Child memory (enter memory dir) child) :
    findVnodeChild memory dir (memory child).vnodeName = some (memory, some child) := by
  have htype : (memory dir).vnodeType = .directory := by
    cases hmounted : (memory dir).mountedVnode with
    | none =>
      rw [enter_eq_self hmounted] at hchild
      exact (htree.child _ _ hwalk.inTree hchild).1
    | some mounted => exact (htree.mount _ _ hwalk.inTree hmounted).1
  obtain ⟨hnull, idx, hidx, hslot⟩ := id hchild
  obtain ⟨first, hfirst⟩ := access_isSome (Nat.zero_le idx) hslot
  have hlen := (htree.name _ _ hwalk.inTree.enter hchild).2.2
  have hself : matchesToken memory (memory child).vnodeName child = true := safeStrcmp_self ..
  have honly : ∀ later other, 0 ≤ later → later < 0 + (memory (enter memory dir)).numChildren →
      access (memory (enter memory dir)).slots later = some other → other ≠ NULL →
      matchesToken memory (memory child).vnodeName other = true → other = child := by
    intro later other _ hlater hother hotherNull hmatch
    have hsibling : Child memory (enter memory dir) other :=
      ⟨hotherNull, later, by omega, hother⟩
    by_contra hne
    rw [matchesToken, safeStrcmp_iff hlen.le] at hmatch
    rcases hmatch with hprefix | hprefix
    · exact htree.siblings _ _ _ hwalk.inTree.enter hsibling hchild hne hprefix
    · exact htree.siblings _ _ _ hwalk.inTree.enter hchild hsibling (Ne.symm hne) hprefix
  rw [findVnodeChild, if_neg (not_not.mpr htype)]
  simp only [allocChildren_of_child hnull hslot, hfirst, bind_eq_bind, bind_some]
  rw [searchLoop_eq hnull hself hfirst ⟨idx, Nat.zero_le _, by omega, hslot⟩ honly]
  rfl

theorem parseLoop_sound_step {tokenNumber : ℕ}
    (hparse : parseLoop path (fuel + 1) tokenNumber mem dir = some (after, some found)) :
    ∃ token last child, strtok VFS_MAX_NAME_LENGTH path '/' tokenNumber = some (token, last) ∧
      Child mem (enter mem dir) child ∧
      (if last then found = enter mem child
        else parseLoop path fuel (tokenNumber + 1) mem child = some (after, some found)) := by
  obtain ⟨⟨token, last⟩, hstrtok, hround⟩ := bind_eq_some_iff.mp hparse
  obtain ⟨⟨next, child⟩, hfind, hrest⟩ := bind_eq_some_iff.mp hround
  cases child with
  | none => cases hrest
  | some child =>
    obtain ⟨rfl, hchild⟩ := findVnodeChild_sound hfind
    refine ⟨token, last, child, hstrtok, hchild, ?_⟩
    cases last with
    | true =>
      obtain ⟨-, hfound⟩ := Prod.mk.inj (some.inj hrest)
      exact (some.inj hfound).symm
    | false => exact hrest

theorem parseLoop_named {path : List Char} {found : Ptr} :
    ∀ {fuel tokenNumber : ℕ} {dir : Ptr} {names : List (List Char)} {after : VnodeMemory},
      Walk root mem dir names →
      parseLoop path fuel tokenNumber mem dir = some (after, some found) →
      ∃ others, Named root mem found others
  | 0, _, dir, names, after, _, hparse => by cases hparse
  | fuel + 1, _, dir, names, after, hwalk, hparse => by
      obtain ⟨token, last, child, -, hchild, hrest⟩ := parseLoop_sound_step hparse
      cases last with
      | true => exact ⟨_, .inr ⟨by simp, child, hwalk.step hchild, hrest⟩⟩
      | false => exact parseLoop_named (hwalk.step hchild) hrest

theorem vnodeLookup_named (hlookup : vnodeLookup root mem path = some (after, some found)) :
    ∃ names, Named root mem found names := by
  simp only [vnodeLookup] at hlookup
  split at hlookup
  · obtain ⟨-, hfound⟩ := Prod.mk.inj (some.inj hlookup)
    exact ⟨[], .inl ⟨rfl, (some.inj hfound).symm⟩⟩
  · exact parseLoop_named .start hlookup

section

variable {first second : List Char} (hfirst : first ≠ [] ∧ '/' ∉ first)
  (hsecond : second ≠ [] ∧ '/' ∉ second)
include hfirst hsecond

theorem strtok_two {num : ℕ} {token : List Char} (htoken : [first, second][num]? = some token) :
    strtok VFS_MAX_NAME_LENGTH (first ++ '/' :: second) '/' (num + 1) =
      if token.length < VFS_MAX_NAME_LENGTH then some (token, decide (num = 1)) else none := by
  have hpath : first ++ '/' :: second = first ++ delimited '/' [second] := by simp [delimited]
  rw [hpath]
  refine strtok_spec ?_ htoken
  simp only [mem_cons, not_mem_nil, or_false, forall_eq_or_imp, forall_eq]
  exact ⟨hfirst, hsecond⟩

theorem length_of_parseLoop
    (hparse : parseLoop (first ++ '/' :: second) fuel 1 mem (enter mem root) =
      some (after, some found)) :
    ∃ names, Named root mem found names ∧ names.length = 2 := by
  have hlast : ∀ {num : ℕ} {token found : List Char} {last : Bool},
      [first, second][num]? = some token →
      strtok VFS_MAX_NAME_LENGTH (first ++ '/' :: second) '/' (num + 1) = some (found, last) →
      last = decide (num = 1) := by
    intro num token found last htoken hstrtok
    rw [strtok_two hfirst hsecond htoken] at hstrtok
    split at hstrtok
    · exact (Prod.mk.inj (some.inj hstrtok)).2.symm
    · cases hstrtok
  cases fuel with
  | zero => cases hparse
  | succ fuel =>
    obtain ⟨token, last, child, hstrtok, hchild, hrest⟩ := parseLoop_sound_step hparse
    obtain rfl := hlast rfl hstrtok
    cases fuel with
    | zero => cases hrest
    | succ fuel =>
      obtain ⟨token', last', child', hstrtok', hchild', hrest'⟩ := parseLoop_sound_step hrest
      obtain rfl := hlast rfl hstrtok'
      exact ⟨_, .inr ⟨by simp, child', (Walk.start.step hchild).step hchild', hrest'⟩, by simp⟩

end

theorem strcat_eq_some {result : List Char} (hstrcat : strcat size str1 str2 = some result) :
    result = str1 ++ str2 ∧ result.length < size := by
  rw [strcat] at hstrcat
  split at hstrcat
  · cases hstrcat
    exact ⟨rfl, by rwa [length_append]⟩
  · cases hstrcat

theorem strcat_of_lt (hlen : str1.length + str2.length < size) :
    strcat size str1 str2 = some (str1 ++ str2) :=
  if_pos hlen

theorem climb_extends : ∀ {fuel : ℕ} {ptr : Ptr} {buf result : List Char},
    climb root mem fuel ptr buf = some result → buf.length < PAGE_SIZE →
      result.length < PAGE_SIZE ∧
        ∃ rest, result = buf ++ rest ∧ (rest = [] ∨ rest.head? = some '/')
  | 0, _, _, _, hclimb, _ => by cases hclimb
  | fuel + 1, ptr, buf, result, hclimb, hlen => by
      rw [climb] at hclimb
      split at hclimb
      · cases hclimb
        exact ⟨hlen, [], by simp, .inl rfl⟩
      · split at hclimb
        · cases hclimb
        · obtain ⟨slash, hslash, hclimb⟩ := bind_eq_some_iff.mp hclimb
          obtain ⟨longer, hlonger, hclimb⟩ := bind_eq_some_iff.mp hclimb
          obtain ⟨rfl, -⟩ := strcat_eq_some hslash
          obtain ⟨rfl, hlonger⟩ := strcat_eq_some hlonger
          obtain ⟨hres, rest, rfl, -⟩ := climb_extends hclimb hlonger
          exact ⟨hres, _, by rw [append_assoc, append_assoc], .inr rfl⟩

theorem climb_round {fuel : ℕ} {ptr : Ptr} {buf : List Char} (hnull : ptr ≠ NULL)
    (hroot : ptr ≠ root) {named : Ptr} (hleave : leave mem ptr = named)
    (hnamed : named ≠ NULL)
    (hlen : buf.length + 1 + (written (mem named)).length < PAGE_SIZE) :
    climb root mem (fuel + 1) ptr buf =
      climb root mem fuel (mem named).vnodeParent
        (buf ++ '/' :: written (mem named)) := by
  subst hleave
  rw [climb, if_neg (not_or.mpr ⟨hnull, hroot⟩), if_neg hnamed,
    strcat_of_lt (by simp only [length_singleton]; omega), bind_eq_bind, bind_some,
    strcat_of_lt (by simp only [length_append, length_singleton]; omega),
    bind_some, append_assoc, singleton_append]

theorem written_of_notMem {vnode : Vnode} (hname : '/' ∉ vnode.vnodeName) :
    written vnode = vnode.vnodeName := by
  refine if_neg fun hhead ↦ hname ?_
  obtain ⟨rest, hrest⟩ := head?_eq_some_iff.mp hhead
  rw [hrest]
  exact mem_cons_self

theorem CachedTree.climb_child (htree : CachedTree root mem)
    (hwalk : Walk root mem dir names)
    (hchild : Child mem (enter mem dir) child) {buf : List Char}
    (hlen : buf.length + VFS_MAX_NAME_LENGTH < PAGE_SIZE) :
    climb root mem (fuel + 1) (enter mem child) buf =
      climb root mem fuel (enter mem dir)
        (buf ++ '/' :: (mem child).vnodeName) := by
  obtain ⟨-, hroot, hpar, hunmounted⟩ := htree.child _ _ hwalk.inTree.enter hchild
  obtain ⟨-, hslash, hshort⟩ := htree.name _ _ hwalk.inTree.enter hchild
  have hwritten := written_of_notMem hslash
  have hfits : buf.length + 1 + (written (mem child)).length < PAGE_SIZE := by
    rw [hwritten]
    omega
  rw [← hpar, ← hwritten]
  cases hmounted : (mem child).mountedVnode with
  | none =>
    rw [enter_eq_self hmounted]
    exact climb_round hchild.1 hroot (by rw [leave, hunmounted]; rfl) hchild.1 hfits
  | some mounted =>
    rw [enter_eq_mounted hmounted]
    obtain ⟨-, hnull, hmountedRoot, hmountPoint, hflag, -⟩ :=
      htree.mount _ _ (hwalk.inTree.enter.child hchild) hmounted
    exact climb_round hnull hmountedRoot (by rw [leave, if_pos hflag, hmountPoint]) hchild.1 hfits

/-- What the climb writes for the root: the name of a file system that another one is mounted over. -/
def rootLabel (vfsRoot : Ptr) (memory : VnodeMemory) : List Char :=
  if (memory (enter memory vfsRoot)).mountedVnode = none then []
  else written (memory (enter memory vfsRoot))

theorem length_written_le (vnode : Vnode) : (written vnode).length ≤ vnode.vnodeName.length := by
  rw [written]
  split
  · exact Nat.zero_le _
  · exact Nat.le_refl _

theorem CachedTree.length_rootLabel (htree : CachedTree root mem) :
    (rootLabel root mem).length < VFS_MAX_NAME_LENGTH := by
  rw [rootLabel]
  split
  · decide
  · have hle := length_written_le (mem (enter mem root))
    rcases htree.start_cases with ⟨hstart, -⟩ | ⟨hmounted, -⟩
    · rw [hstart, htree.rootName] at hle
      rw [hstart]
      exact lt_of_le_of_lt hle (by decide)
    · exact lt_of_le_of_lt hle (htree.mount _ _ .root hmounted).2.2.2.2.2

theorem climb_root (fuel : ℕ) (buffer : List Char) :
    climb vfsRoot memory (fuel + 1) vfsRoot buffer = some buffer := by
  rw [climb, if_pos (.inr rfl)]

theorem CachedTree.climb_mounted (htree : CachedTree root mem) {mounted : Ptr}
    (hmounted : (mem root).mountedVnode = some mounted) {fuel : ℕ} {buf : List Char}
    (hlen : buf.length + 1 < PAGE_SIZE) :
    climb root mem (fuel + 2) mounted buf = some (buf ++ ['/']) := by
  obtain ⟨-, hnull, hroot, hpar, hflag, -⟩ := htree.mount _ _ .root hmounted
  have hwritten : written (mem root) = [] := by
    rw [written_of_notMem (by rw [htree.rootName]; exact not_mem_nil), htree.rootName]
  have hround := @climb_round root mem (fuel + 1) mounted buf hnull hroot root
    (by rw [leave, if_pos hflag, hpar]) htree.rootNotNull (by rw [hwritten]; simpa using hlen)
  rw [hround, hwritten, htree.rootParent, climb, if_pos (.inl rfl)]

theorem CachedTree.climb_start (htree : CachedTree root mem) {fuel : ℕ} {buf : List Char}
    (hlen : buf.length + VFS_MAX_NAME_LENGTH < PAGE_SIZE) :
    ∃ rest, climb root mem (fuel + 2) (enter mem (enter mem root)) buf =
        some (buf ++ rest) ∧ (rest = [] ∨ rest = '/' :: rootLabel root mem) ∧
      (rest = [] → rootLabel root mem = []) := by
  have hmax : VFS_MAX_NAME_LENGTH = 128 := rfl
  rcases htree.start_cases with ⟨hstart, hnone⟩ | ⟨hmounted, hpar, hflag⟩
  · refine ⟨[], ?_, .inl rfl, fun _ ↦ ?_⟩
    · rw [hstart, hstart, climb_root, append_nil]
    · rw [rootLabel, hstart, if_pos hnone]
  · cases hover : (mem (enter mem root)).mountedVnode with
    | none =>
      have hlabel : rootLabel root mem = [] := if_pos hover
      refine ⟨['/'], ?_, .inr (by rw [hlabel]), fun _ ↦ hlabel⟩
      rw [enter_eq_self hover]
      exact htree.climb_mounted hmounted (by omega)
    | some second =>
      have hlabel : rootLabel root mem = written (mem (enter mem root)) :=
        if_neg (by rw [hover]; exact some_ne_none _)
      have hshort := htree.length_rootLabel
      obtain ⟨-, hnull, hroot, hbelow, hsecond, -⟩ := htree.mount _ _ InTree.root.enter hover
      refine ⟨'/' :: rootLabel root mem, ?_, .inr rfl, fun hnil ↦ by cases hnil⟩
      rw [enter_eq_mounted hover, hlabel]
      have hround := @climb_round root mem (fuel + 1) second buf hnull hroot
        (enter mem root) (by rw [leave, if_pos hsecond, hbelow])
        (htree.mount _ _ .root hmounted).2.1 (by rw [← hlabel]; omega)
      rw [hround, hpar, climb_root]

section Tokens

variable {size : ℕ} {first rest : List Char}

theorem strtokZeroed_first (hfirst : '/' ∉ first) (hrest : rest = [] ∨ rest.head? = some '/') :
    ∃ last, strtokZeroed size ('/' :: first ++ rest) '/' 1 = some (first, last) := by
  obtain ⟨last, hloop⟩ := @exists_strtokZeroedLoop_copy
    (decide (('/' :: first ++ rest).length + 1 < size)) '/' 1 rest hrest first [] hfirst
  exact ⟨last, by simpa [strtokZeroed] using hloop⟩

theorem strtokZeroed_rest (hfirst : '/' ∉ first) :
    strtokZeroed size ('/' :: first ++ rest) '/' 2 =
      strtokZeroedLoop (decide (('/' :: first ++ rest).length + 1 < size)) '/' 2 rest 1 [] := by
  have hskip := @strtokZeroedLoop_skip (decide (('/' :: first ++ rest).length + 1 < size)) '/' 2 1
    (by decide) rest [] first hfirst
  rw [← hskip]
  simp [strtokZeroed]

theorem strtokZeroed_missing (hfirst : '/' ∉ first) (hrest : rest = [] ∨ rest = ['/'])
    (hlen : ('/' :: first ++ rest).length + 1 < size) :
    strtokZeroed size ('/' :: first ++ rest) '/' 2 = some ([], true) := by
  rw [strtokZeroed_rest hfirst, decide_eq_true hlen]
  rcases hrest with rfl | rfl <;> rfl

theorem strtokZeroed_second {second others : List Char} (hfirst : '/' ∉ first)
    (hsecond : second ≠ [] ∧ '/' ∉ second) (hothers : others = [] ∨ others.head? = some '/') :
    ∃ last, strtokZeroed size ('/' :: first ++ '/' :: second ++ others) '/' 2 =
      some (second, last) := by
  obtain ⟨c, chars, rfl⟩ := exists_cons_of_ne_nil hsecond.1
  obtain ⟨-, hchars⟩ := not_or.mp (mt mem_cons.mpr hsecond.2)
  obtain ⟨last, hloop⟩ := @exists_strtokZeroedLoop_copy
    (decide (('/' :: first ++ ('/' :: c :: chars ++ others)).length + 1 < size)) '/' 2 others hothers
    chars [c] hchars
  refine ⟨last, ?_⟩
  rw [append_assoc, strtokZeroed_rest hfirst]
  exact hloop

end Tokens

end DionysOS.Filesystem.CanonicalPath
