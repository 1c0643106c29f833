import DionysOS.Filesystem.CanonicalPathSteps

/-!
# Looking up a canonical path

`strtok_count` says one for every buffer, so that `vnode_get_canonical_path` appends two tokens: the
name of the vnode and the name of the directory above it. The round trip is right for the vnodes
that are not hidden behind a mount and whose path has at most two names.
-/

namespace DionysOS.Filesystem.CanonicalPath

open DataStructures Definitions.Strings ChildCache List Option
open Vfs (VFS_MAX_NAME_LENGTH)

variable {vfsRoot : Ptr} {memory : VnodeMemory}

variable {buf first second : List Char} {vnode child parent : Ptr} {names : List (List Char)}

theorem length_lt_UINT64_MAX (hlen : buf.length < PAGE_SIZE) :
    buf.length + 1 < UINT64_MAX := by
  simp only [PAGE_SIZE] at hlen
  simp only [UINT64_MAX]
  omega

theorem exists_tokens {path : List Char}
    (hpath : vnodeGetCanonicalPath vfsRoot memory vnode = some path) :
    ∃ buf first second firstLast secondLast,
      climb vfsRoot memory PAGE_SIZE vnode [] = some buf ∧
      strtokZeroed PAGE_SIZE buf '/' 1 = some (first, firstLast) ∧
      strtokZeroed PAGE_SIZE buf '/' 2 = some (second, secondLast) ∧
      path = '/' :: second ++ '/' :: first := by
  obtain ⟨buf, hclimb, hpath⟩ := bind_eq_some_iff.mp hpath
  obtain ⟨count, hcount, htokens⟩ := bind_eq_some_iff.mp hpath
  obtain ⟨hlen, -⟩ := climb_extends hclimb (by decide)
  obtain rfl := strtokCount_eq_one (length_lt_UINT64_MAX hlen) hcount
  obtain ⟨⟨second, secondLast⟩, hsecond, htokens⟩ := bind_eq_some_iff.mp htokens
  obtain ⟨slash, hslash, htokens⟩ := bind_eq_some_iff.mp htokens
  obtain ⟨half, hhalf, htokens⟩ := bind_eq_some_iff.mp htokens
  obtain ⟨⟨first, firstLast⟩, hfirst, htokens⟩ := bind_eq_some_iff.mp htokens
  obtain ⟨between, hbetween, htokens⟩ := bind_eq_some_iff.mp htokens
  obtain ⟨whole, hwhole, htokens⟩ := bind_eq_some_iff.mp htokens
  obtain ⟨rfl, -⟩ := strcat_eq_some hslash
  obtain ⟨rfl, -⟩ := strcat_eq_some hhalf
  obtain ⟨rfl, -⟩ := strcat_eq_some hbetween
  obtain ⟨rfl, -⟩ := strcat_eq_some hwhole
  refine ⟨buf, first, second, firstLast, secondLast, hclimb, hfirst, hsecond, ?_⟩
  rw [← some.inj htokens]
  simp

theorem vnodeGetCanonicalPath_eq
    {firstLast secondLast : Bool} (hclimb : climb vfsRoot memory PAGE_SIZE vnode [] = some buf)
    (hroom : buf.length + 1 < PAGE_SIZE)
    (hfirst : strtokZeroed PAGE_SIZE buf '/' 1 = some (first, firstLast))
    (hsecond : strtokZeroed PAGE_SIZE buf '/' 2 = some (second, secondLast))
    (hlen : first.length + second.length + 2 < PAGE_SIZE) :
    vnodeGetCanonicalPath vfsRoot memory vnode = some ('/' :: second ++ '/' :: first) := by
  have hcount : strtokCount PAGE_SIZE buf '/' PAGE_SIZE = some 1 :=
    strtokCount_of_room (length_lt_UINT64_MAX (Nat.lt_of_succ_lt hroom)) hroom
  simp only [vnodeGetCanonicalPath, hclimb, hcount, bind_eq_bind, bind_some,
    appendTokens, hsecond, hfirst]
  rw [strcat_of_lt (by simp [PAGE_SIZE]), bind_some,
    strcat_of_lt (by simp only [nil_append, length_singleton]; omega), bind_some,
    strcat_of_lt (by simp; omega), bind_some, strcat_of_lt (by simp; omega), bind_some]
  simp

theorem vnodeLookup_two (hsecond : second ≠ [] ∧ '/' ∉ second) :
    vnodeLookup vfsRoot memory ('/' :: second ++ '/' :: first) =
      parseLoop (second ++ '/' :: first) (second ++ '/' :: first).length 1 memory
        (enter memory vfsRoot) := by
  obtain ⟨c, chars, rfl⟩ := exists_cons_of_ne_nil hsecond.1
  have hc : c ≠ '/' := fun h ↦ hsecond.2 (h ▸ mem_cons_self)
  simp [vnodeLookup, hc]

theorem Walk.exists_step (hwalk : Walk vfsRoot memory vnode names) (hnames : names ≠ []) :
    ∃ directory init, Walk vfsRoot memory directory init ∧
      Child memory (enter memory directory) vnode ∧ names = init ++ [(memory vnode).vnodeName] := by
  cases hwalk with
  | start => exact absurd rfl hnames
  | step hwalk hchild => exact ⟨_, _, hwalk, hchild, rfl⟩

theorem CachedTree.length_eq_two (htree : CachedTree vfsRoot memory)
    (hnamed : Named vfsRoot memory vnode names) {rest : List Char}
    (hfirst : first ≠ [] ∧ '/' ∉ first) (hsecond : second ≠ [] ∧ '/' ∉ second)
    (hrest : rest = [] ∨ rest.head? = some '/') (hclimb : climb vfsRoot memory PAGE_SIZE vnode [] =
      some ('/' :: first ++ '/' :: second ++ rest))
    (hround : lookupCanonicalPath vfsRoot memory vnode = some (some vnode)) :
    names.length = 2 := by
  obtain ⟨path, hpath, hlookup⟩ := bind_eq_some_iff.mp hround
  obtain ⟨⟨after, found⟩, hlookup, hfound⟩ := map_eq_some_iff.mp hlookup
  obtain rfl : found = some vnode := hfound
  obtain ⟨buf, token, token', last, last', hclimb', htoken, htoken', rfl⟩ := exists_tokens hpath
  obtain rfl := some.inj (hclimb'.symm.trans hclimb)
  obtain ⟨firstLast, hfirstToken⟩ := @strtokZeroed_first PAGE_SIZE first ('/' :: second ++ rest)
    hfirst.2 (.inr rfl)
  rw [← append_assoc] at hfirstToken
  obtain ⟨secondLast, hsecondToken⟩ := @strtokZeroed_second PAGE_SIZE first second rest hfirst.2
    hsecond hrest
  obtain ⟨rfl, -⟩ := Prod.mk.inj (some.inj (htoken.symm.trans hfirstToken))
  obtain ⟨rfl, -⟩ := Prod.mk.inj (some.inj (htoken'.symm.trans hsecondToken))
  rw [vnodeLookup_two hsecond] at hlookup
  obtain ⟨others, hothers, hlen⟩ := length_of_parseLoop hsecond hfirst hlookup
  rw [htree.named_unique hnamed hothers, hlen]

theorem walk_nil (hwalk : Walk vfsRoot memory vnode names)
    (hnames : names = []) : vnode = enter memory vfsRoot := by
  cases hwalk with
  | start => rfl
  | step => simp at hnames

theorem exists_split : ∀ str : List Char, ∃ token others, str = token ++ others ∧ '/' ∉ token ∧
    (others = [] ∨ others.head? = some '/')
  | [] => ⟨[], [], rfl, by simp, .inl rfl⟩
  | c :: str => by
      by_cases hc : c = '/'
      · exact ⟨[], c :: str, rfl, by simp, .inr (by rw [hc]; rfl)⟩
      · obtain ⟨token, others, rfl, htoken, hothers⟩ := exists_split str
        refine ⟨c :: token, others, rfl, ?_, hothers⟩
        simpa using ⟨Ne.symm hc, htoken⟩

theorem head_rootLabel : (rootLabel vfsRoot memory).head? ≠ some '/' := by
  rw [rootLabel, written]
  split
  · simp
  · split
    · simp
    · assumption

section

variable (htree : CachedTree vfsRoot memory)
include htree

theorem CachedTree.climb_one (hchild : Child memory (enter memory (enter memory vfsRoot)) child) :
    ∃ rest, climb vfsRoot memory PAGE_SIZE (enter memory child) [] =
        some ('/' :: (memory child).vnodeName ++ rest) ∧
      (rest = [] ∨ rest = '/' :: rootLabel vfsRoot memory) ∧
      (rest = [] → rootLabel vfsRoot memory = []) := by
  have hshort := (htree.name _ _ InTree.root.enter.enter hchild).2.2
  have hmax : VFS_MAX_NAME_LENGTH = 128 := rfl
  obtain ⟨rest, hclimb, hrest⟩ := @CachedTree.climb_start _ _ htree 4093
    ('/' :: (memory child).vnodeName)
    (show _ + 1 + 128 < 4096 by omega)
  refine ⟨rest, ?_, hrest⟩
  rw [show PAGE_SIZE = 4093 + 2 + 1 from rfl, htree.climb_child .start hchild (by decide)]
  exact hclimb

theorem CachedTree.climb_two {directory : Ptr} (hwalk : Walk vfsRoot memory directory names)
    (hpar : Child memory (enter memory directory) parent)
    (hchild : Child memory (enter memory parent) child) :
    climb vfsRoot memory PAGE_SIZE (enter memory child) [] =
      climb vfsRoot memory 4094 (enter memory directory)
        ('/' :: (memory child).vnodeName ++ '/' :: (memory parent).vnodeName) := by
  have hshort := (htree.name _ _ (hwalk.step hpar).inTree.enter hchild).2.2
  have hmax : VFS_MAX_NAME_LENGTH = 128 := rfl
  rw [show PAGE_SIZE = 4094 + 1 + 1 from rfl,
    htree.climb_child (hwalk.step hpar) hchild (by decide),
    htree.climb_child hwalk hpar (show _ + 1 + 128 < 4096 by omega)]
  rfl

theorem CachedTree.length_le_two (hnamed : Named vfsRoot memory vnode names)
    (hround : lookupCanonicalPath vfsRoot memory vnode = some (some vnode)) :
    names.length ≤ 2 ∧ (names.length = 1 → rootLabel vfsRoot memory = []) := by
  rcases id hnamed with ⟨rfl, -⟩ | ⟨hne, found, hwalk, rfl⟩
  · simp
  obtain ⟨directory, init, hdir, hchild, rfl⟩ := hwalk.exists_step hne
  obtain ⟨hname, hslash, -⟩ := htree.name _ _ hdir.inTree.enter hchild
  by_cases hinit : init = []
  · subst hinit
    obtain rfl := walk_nil hdir rfl
    refine ⟨by simp, fun _ ↦ ?_⟩
    by_contra hlabel
    obtain ⟨rest, hclimb, hrest, hempty⟩ := htree.climb_one hchild
    obtain rfl := hrest.resolve_left (mt hempty hlabel)
    -- the label up to its first slash is the second token
    obtain ⟨token, others, hsplit, htoken, hothers⟩ := exists_split (rootLabel vfsRoot memory)
    have htokenNil : token ≠ [] := by
      rintro rfl
      rcases hothers with rfl | hhead
      · exact hlabel hsplit
      · exact head_rootLabel (by rw [hsplit]; exact hhead)
    rw [hsplit, ← cons_append, ← append_assoc] at hclimb
    have htwo := htree.length_eq_two hnamed ⟨hname, hslash⟩ ⟨htokenNil, htoken⟩ hothers hclimb hround
    simp at htwo
  · obtain ⟨above, others, habove, hpar, rfl⟩ := hdir.exists_step hinit
    obtain ⟨hparentName, hparentSlash, -⟩ := htree.name _ _ habove.inTree.enter hpar
    obtain ⟨path, hpath, -⟩ := bind_eq_some_iff.mp hround
    obtain ⟨buf, -, -, -, -, hclimb, -⟩ := exists_tokens hpath
    have hup := htree.climb_two habove hpar hchild
    have hshort := (htree.name _ _ habove.inTree.enter hpar).2.2
    have hchildShort := (htree.name _ _ hdir.inTree.enter hchild).2.2
    obtain ⟨-, rest, rfl, hrest⟩ := climb_extends (hup.symm.trans hclimb) (by
      simp only [length_append, length_cons, VFS_MAX_NAME_LENGTH, PAGE_SIZE] at *
      omega)
    have htwo := htree.length_eq_two hnamed ⟨hname, hslash⟩ ⟨hparentName, hparentSlash⟩ hrest hclimb
      hround
    exact ⟨le_of_eq htwo, fun hone ↦ by omega⟩

end

section Lookups

variable (htree : CachedTree vfsRoot memory) {directory child : Ptr} {names : List (List Char)}
  (hwalk : Walk vfsRoot memory directory names) (hchild : Child memory (enter memory directory) child)
  {path : List Char} {fuel num : ℕ}

include htree hwalk hchild

theorem CachedTree.parseLoop_last
    (hstrtok : strtok VFS_MAX_NAME_LENGTH path '/' num = some ((memory child).vnodeName, true)) :
    parseLoop path (fuel + 1) num memory directory =
      some (memory, some (enter memory child)) := by
  simp only [parseLoop, hstrtok, htree.findVnodeChild_eq hwalk hchild, bind_eq_bind,
    bind_some, if_true]

theorem CachedTree.parseLoop_next
    (hstrtok : strtok VFS_MAX_NAME_LENGTH path '/' num = some ((memory child).vnodeName, false)) :
    parseLoop path (fuel + 1) num memory directory =
      parseLoop path fuel (num + 1) memory child := by
  simp only [parseLoop, hstrtok, htree.findVnodeChild_eq hwalk hchild, bind_eq_bind,
    bind_some, Bool.false_eq_true, if_false]

end Lookups

section

variable (htree : CachedTree vfsRoot memory)
include htree

theorem CachedTree.roundTrip_root :
    lookupCanonicalPath vfsRoot memory (enter memory vfsRoot) =
      some (some (enter memory vfsRoot)) := by
  obtain ⟨buf, hclimb, hbuf⟩ : ∃ buf,
      climb vfsRoot memory PAGE_SIZE (enter memory vfsRoot) [] = some buf ∧
        (buf = [] ∨ buf = ['/']) := by
    rcases htree.start_cases with ⟨hstart, -⟩ | ⟨hmounted, -⟩
    · exact ⟨[], by rw [hstart]; exact climb_root 4095 [], .inl rfl⟩
    · exact ⟨['/'], @CachedTree.climb_mounted _ _ htree _ hmounted 4094 [] (by decide), .inr rfl⟩
  have hpath : vnodeGetCanonicalPath vfsRoot memory (enter memory vfsRoot) = some ['/', '/'] := by
    rcases hbuf with rfl | rfl
    · exact vnodeGetCanonicalPath_eq hclimb (by decide) rfl rfl (by decide)
    · exact vnodeGetCanonicalPath_eq hclimb (by decide) rfl rfl (by decide)
  rw [lookupCanonicalPath, hpath]
  rfl

theorem CachedTree.roundTrip_one (hchild : Child memory (enter memory (enter memory vfsRoot)) child)
    (hlabel : rootLabel vfsRoot memory = []) :
    lookupCanonicalPath vfsRoot memory (enter memory child) = some (some (enter memory child)) := by
  obtain ⟨hname, hslash, hshort⟩ := htree.name _ _ InTree.root.enter.enter hchild
  obtain ⟨rest, hclimb, hrest, -⟩ := htree.climb_one hchild
  rw [hlabel] at hrest
  have hlengths : (memory child).vnodeName.length + rest.length + 3 < PAGE_SIZE := by
    have hle : rest.length ≤ 1 := by rcases hrest with rfl | rfl <;> simp
    simp only [VFS_MAX_NAME_LENGTH] at hshort
    simp only [PAGE_SIZE]
    omega
  have hbuf : ('/' :: (memory child).vnodeName ++ rest).length + 1 < PAGE_SIZE := by
    simp only [length_append, length_cons]
    omega
  obtain ⟨last, hfirst⟩ := @strtokZeroed_first PAGE_SIZE (memory child).vnodeName rest hslash
    (hrest.imp_right fun h ↦ by rw [h]; rfl)
  have hpath := vnodeGetCanonicalPath_eq hclimb hbuf hfirst
    (strtokZeroed_missing hslash hrest hbuf) (by simp only [length_nil]; omega)
  have hlookup : vnodeLookup vfsRoot memory ('/' :: [] ++ '/' :: (memory child).vnodeName) =
      parseLoop (memory child).vnodeName (memory child).vnodeName.length 1 memory
        (enter memory vfsRoot) := by
    obtain ⟨c, chars, hchars⟩ := exists_cons_of_ne_nil hname
    have hc : c ≠ '/' := fun h ↦ hslash (by rw [hchars, h]; exact mem_cons_self)
    simp [vnodeLookup, hchars, hc]
  have hstrtok : strtok VFS_MAX_NAME_LENGTH (memory child).vnodeName '/' 1 =
      some ((memory child).vnodeName, true) := by
    have hspec := @strtok_spec '/' [] (memory child).vnodeName 0 VFS_MAX_NAME_LENGTH
      (by simpa using ⟨hname, hslash⟩) _ rfl
    simpa [delimited, hshort] using hspec
  obtain ⟨fuel, hfuel⟩ := Nat.exists_eq_succ_of_ne_zero (mt eq_nil_of_length_eq_zero hname)
  rw [lookupCanonicalPath, hpath, bind_some, hlookup, hfuel,
    htree.parseLoop_last .start hchild hstrtok, map_some]

theorem CachedTree.roundTrip_two
    (hpar : Child memory (enter memory (enter memory vfsRoot)) parent)
    (hchild : Child memory (enter memory parent) child) :
    lookupCanonicalPath vfsRoot memory (enter memory child) = some (some (enter memory child)) := by
  have hwalk := Walk.start.step hpar
  obtain ⟨hname, hslash, hshort⟩ := htree.name _ _ InTree.root.enter.enter hpar
  obtain ⟨hchildName, hchildSlash, hchildShort⟩ := htree.name _ _ hwalk.inTree.enter hchild
  have hlabel := htree.length_rootLabel
  simp only [VFS_MAX_NAME_LENGTH] at hshort hchildShort hlabel
  set first := (memory child).vnodeName with hfirst
  set second := (memory parent).vnodeName with hsecond
  obtain ⟨rest, hstart, hrest, -⟩ := @CachedTree.climb_start _ _ htree 4092
    ('/' :: first ++ '/' :: second) (by
      simp only [length_append, length_cons, VFS_MAX_NAME_LENGTH, PAGE_SIZE]
      omega)
  have hclimb := (htree.climb_two .start hpar hchild).trans hstart
  have hbuf : ('/' :: first ++ '/' :: second ++ rest).length + 1 < PAGE_SIZE := by
    have hle : rest.length ≤ 128 := by
      rcases hrest with rfl | rfl
      · simp
      · rw [length_cons]
        omega
    simp only [length_append, length_cons, PAGE_SIZE]
    omega
  obtain ⟨firstLast, hfirstToken⟩ := @strtokZeroed_first PAGE_SIZE first ('/' :: second ++ rest)
    hchildSlash (.inr rfl)
  rw [← append_assoc] at hfirstToken
  obtain ⟨secondLast, hsecondToken⟩ := @strtokZeroed_second PAGE_SIZE first second rest hchildSlash
    ⟨hname, hslash⟩ (hrest.imp_right fun h ↦ by rw [h]; rfl)
  have hpath := vnodeGetCanonicalPath_eq hclimb hbuf hfirstToken hsecondToken (by
    simp only [PAGE_SIZE]
    omega)
  have htoken : ∀ {num : ℕ} {token : List Char}, [second, first][num]? = some token →
      token.length < 128 → strtok VFS_MAX_NAME_LENGTH (second ++ '/' :: first) '/' (num + 1) =
        some (token, decide (num = 1)) := fun htoken hlen ↦
    (strtok_two ⟨hname, hslash⟩ ⟨hchildName, hchildSlash⟩ htoken).trans (if_pos hlen)
  have hlen : (second ++ '/' :: first).length = second.length + (first.length - 1) + 1 + 1 := by
    have hpos := length_pos_of_ne_nil hchildName
    simp only [length_append, length_cons]
    omega
  rw [lookupCanonicalPath, hpath, bind_some, vnodeLookup_two ⟨hname, hslash⟩, hlen,
    htree.parseLoop_next .start hpar (htoken rfl hshort),
    htree.parseLoop_last hwalk hchild
      (htoken rfl hchildShort), map_some]

end

/-- **Round trips of canonical paths.** The canonical path of a vnode leads back to it if, and only if,
lookups reach it by at most two names. With one name there is a condition more: no file system
with a name lies between the root and the file system that is looked at. -/
theorem lookupCanonicalPath_iff (htree : CachedTree vfsRoot memory) (vnode : Ptr) :
    lookupCanonicalPath vfsRoot memory vnode = some (some vnode) ↔
      ∃ names, Named vfsRoot memory vnode names ∧ names.length ≤ 2 ∧
        (names.length = 1 → rootLabel vfsRoot memory = []) := by
  constructor
  · intro hround
    obtain ⟨path, -, hlookup⟩ := bind_eq_some_iff.mp hround
    obtain ⟨⟨after, found⟩, hlookup, rfl⟩ := map_eq_some_iff.mp hlookup
    obtain ⟨names, hnamed⟩ := vnodeLookup_named hlookup
    exact ⟨names, hnamed, htree.length_le_two hnamed hround⟩
  · rintro ⟨names, hnamed, hlen, hlabel⟩
    rcases hnamed with ⟨-, rfl⟩ | ⟨hne, found, hwalk, rfl⟩
    · exact htree.roundTrip_root
    obtain ⟨directory, init, hdir, hchild, rfl⟩ := hwalk.exists_step hne
    by_cases hinit : init = []
    · subst hinit
      obtain rfl := walk_nil hdir rfl
      exact htree.roundTrip_one hchild (hlabel rfl)
    · obtain ⟨above, others, habove, hpar, rfl⟩ := hdir.exists_step hinit
      obtain rfl : others = [] := eq_nil_of_length_eq_zero (by simpa using hlen)
      obtain rfl := walk_nil habove rfl
      exact htree.roundTrip_two hpar hchild

/-- The directory `/a/a/a`: vnode 1 is the root, and each of the next three is the only child of the
one before. -/
def nested : VnodeMemory := fun vnode ↦
  { vnodeParent := vnode - 1
    vnodeChildren := some fun index ↦ if index.val = 0 then vnode + 1 else NULL
    numChildren := if 1 ≤ vnode ∧ vnode ≤ 3 then 1 else 0
    mountedVnode := none
    isMounted := false
    vnodeName := if vnode = 1 then [] else ['a']
    vnodeType := .directory
    vnodeActiveReferences := 0 }

theorem child_nested {directory child : ℕ} (hchild : Child nested directory child) :
    1 ≤ directory ∧ directory ≤ 3 ∧ child = directory + 1 := by
  obtain ⟨-, idx, hidx, hslot⟩ := hchild
  simp only [nested] at hidx
  split at hidx
  · rename_i hdir
    obtain rfl : idx = 0 := by omega
    exact ⟨hdir.1, hdir.2, (some.inj hslot).symm⟩
  · omega

theorem cachedTree_nested : CachedTree 1 nested := by
  refine ⟨by decide, rfl, rfl, rfl, fun directory child _ hchild ↦ ?_, fun _ _ _ hmounted ↦ ?_,
    fun directory child _ hchild ↦ ?_, fun directory child other _ hchild hother hne ↦ ?_⟩
  · obtain ⟨hlower, -, rfl⟩ := child_nested hchild
    exact ⟨rfl, fun hroot ↦ ne_of_gt hlower (Nat.succ.inj hroot),
      Nat.add_sub_cancel directory 1, rfl⟩
  · cases hmounted
  · obtain ⟨hlower, -, rfl⟩ := child_nested hchild
    have hname : (nested (directory + 1)).vnodeName = ['a'] :=
      if_neg fun hroot ↦ ne_of_gt hlower (Nat.succ.inj hroot)
    rw [hname]
    decide
  · exact absurd ((child_nested hchild).2.2.trans (child_nested hother).2.2.symm) hne

theorem walk_nested : Walk 1 nested 3 [['a'], ['a']] :=
  have hsecond : Child nested 1 2 := ⟨by decide, 0, by decide, by decide⟩
  have hthird : Child nested 2 3 := ⟨by decide, 0, by decide, by decide⟩
  (Walk.start.step hsecond).step hthird

/-- The second directory is found under its canonical path. -/
theorem lookupCanonicalPath_iff_second :
    CachedTree 1 nested ∧ lookupCanonicalPath 1 nested 3 = some (some 3) :=
  ⟨cachedTree_nested, (lookupCanonicalPath_iff cachedTree_nested 3).mpr
    ⟨_, .inr ⟨by decide, 3, walk_nested, rfl⟩, by decide, by decide⟩⟩

/-- The third directory has the canonical path `/a/a`, which is that of the second. -/
theorem lookupCanonicalPath_third :
    CachedTree 1 nested ∧ InTree 1 nested 4 ∧
      vnodeGetCanonicalPath 1 nested 4 = some ['/', 'a', '/', 'a'] ∧
      lookupCanonicalPath 1 nested 4 = some (some 3) :=
  ⟨cachedTree_nested, walk_nested.inTree.child ⟨by decide, 0, by decide, by decide⟩,
    by decide +kernel, by decide +kernel⟩

end DionysOS.Filesystem.CanonicalPath
