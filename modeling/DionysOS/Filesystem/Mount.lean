import DionysOS.Filesystem.ChildCache

/-!
# Mounting and unmounting

`mount` and `unmount` of `vfs.c`, with the lookups that they start with. The lookup of a file system,
which fills a directory that is not cached, is called through `vnode_ops` and is a parameter. `none`
is a panic, a null dereference or an access outside an array.

`unmount` looks its path up as every other call does, and a lookup does not stop at a mount point: it
returns the vnode that is mounted there. So `vnode_unmount` is given the wrong vnode. It also leaves
`is_mounted` set.
-/

namespace DionysOS.Filesystem.Mount

open DataStructures Definitions.Strings Function Option Prod
open ChildCache (ChildArray access emptyArray)
open Vfs (VnodeType VFS_MAX_NAME_LENGTH)

/-- `struct vnode`, with `vnode_children` once it is allocated. -/
structure Vnode where
  vnodeParent : Ptr
  vnodeChildren : Option ChildArray
  numChildren : ℕ
  vnodeName : List Char
  vnodeType : VnodeType
  isMountPoint : Bool
  mountedVnode : Ptr
  isMounted : Bool
  isCached : Bool

abbrev VnodeMemory := Ptr → Vnode

/-- `vnode_ops->lookup`. -/
abbrev Lookup := VnodeMemory → Ptr → List Char → Option (VnodeMemory × Ptr)

/-- The return values of `mount` and `unmount`. -/
inductive ReturnCode where
  | KERN_SUCCESS
  | KERN_NOT_FOUND
deriving DecidableEq, Repr

/-- The mounted vnode of a mount point, the vnode itself otherwise. -/
def enter (memory : VnodeMemory) (vnode : Ptr) : Ptr :=
  if (memory vnode).isMountPoint then (memory vnode).mountedVnode else vnode

def allocChildren (memory : VnodeMemory) (vnode : Ptr) : VnodeMemory :=
  update memory vnode
    { memory vnode with vnodeChildren := some ((memory vnode).vnodeChildren.getD emptyArray) }

/-- The loop of `find_vnode_child`, with `remaining` rounds to go. -/
def searchLoop (memory : VnodeMemory) (children : ChildArray) (token : List Char) :
    ℕ → ℕ → Ptr → Option Ptr
  | 0, _, _ => some NULL
  | remaining + 1, index, child =>
      if child ≠ NULL ∧ safeStrcmp (memory child).vnodeName token VFS_MAX_NAME_LENGTH = true then
        some child
      else do
        let child ← access children (index + 1)
        searchLoop memory children token remaining (index + 1) child

def findVnodeChild (lookup : Lookup) (memory : VnodeMemory) (vnode : Ptr) (token : List Char) :
    Option (VnodeMemory × Ptr) :=
  if (memory vnode).vnodeType ≠ .directory then some (memory, NULL)
  else
    let vnode := enter memory vnode
    if (memory vnode).isCached = false ∧ (memory vnode).numChildren = 0 then do
      let (memory, child) ← lookup memory vnode token
      some (update memory vnode { memory vnode with isCached := true }, child)
    else do
      let memory := allocChildren memory vnode
      let children := (memory vnode).vnodeChildren.getD emptyArray
      let child ← access children 0
      let found ← searchLoop memory children token (memory vnode).numChildren 0 child
      some (memory, found)

/-- The loop of `parse_path`, with `tokenNumber` the token to read next. -/
def parseLoop (lookup : Lookup) (path : List Char) :
    ℕ → ℕ → VnodeMemory → Ptr → Option (VnodeMemory × Ptr)
  | 0, _, _, _ => none
  | fuel + 1, tokenNumber, memory, vnode => do
      let (token, last) ← strtok VFS_MAX_NAME_LENGTH path '/' tokenNumber
      let (memory, child) ← findVnodeChild lookup memory vnode token
      if child = NULL then some (memory, NULL)
      else if last then some (memory, enter memory child)
      else parseLoop lookup path fuel (tokenNumber + 1) memory child

/-- The root of the virtual file system and the working directory of the process. -/
structure Places where
  vfsRoot : Ptr
  currentWorkingDir : Ptr

/-- `vnode_lookup` and `parse_path`. -/
def vnodeLookup (lookup : Lookup) (places : Places) (memory : VnodeMemory) (path : List Char) :
    Option (VnodeMemory × Ptr) :=
  let vnode := if path.head? = some '/' then enter memory places.vfsRoot
    else places.currentWorkingDir
  let path := path.dropWhile (· == '/')
  if path = [] then some (memory, vnode) else parseLoop lookup path path.length 1 memory vnode

/-- `vnode_mount`. Where it would return an error it panics. -/
def vnodeMount (memory : VnodeMemory) (mountPoint mounted : Ptr) : Option VnodeMemory :=
  if (memory mountPoint).isMountPoint then none
  else if (memory mountPoint).vnodeType ≠ .directory then none
  else if (memory mounted).isMountPoint then none
  else
    let memory := update memory mounted
      { memory mounted with vnodeParent := mountPoint, isMounted := true }
    some (update memory mountPoint
      { memory mountPoint with isMountPoint := true, mountedVnode := mounted, isCached := true })

def vnodeUnmount (memory : VnodeMemory) (vnode : Ptr) : VnodeMemory × ReturnCode :=
  if (memory vnode).isMountPoint = false then (memory, .KERN_NOT_FOUND)
  else
    let mounted := (memory vnode).mountedVnode
    let memory := update memory mounted { memory mounted with vnodeParent := NULL }
    (update memory vnode
      { memory vnode with isMountPoint := false, mountedVnode := NULL, isCached := false },
      .KERN_SUCCESS)

variable (lookup : Lookup) (places : Places)

def mount (memory : VnodeMemory) (mountPoint mountedFilesystem : List Char) :
    Option (VnodeMemory × ReturnCode) := do
  let (memory, vnode) ← vnodeLookup lookup places memory mountPoint
  if vnode = NULL then some (memory, .KERN_NOT_FOUND)
  else do
    let (memory, vnodeToMount) ← vnodeLookup lookup places memory mountedFilesystem
    if vnodeToMount = NULL then some (memory, .KERN_NOT_FOUND)
    else do
      let memory ← vnodeMount memory vnode vnodeToMount
      some (memory, .KERN_SUCCESS)

def unmount (memory : VnodeMemory) (path : List Char) : Option (VnodeMemory × ReturnCode) := do
  let (memory, mountPoint) ← vnodeLookup lookup places memory path
  if mountPoint = NULL then some (memory, .KERN_NOT_FOUND)
  else some (vnodeUnmount memory mountPoint)

def Vnode.mountState (vnode : Vnode) : Bool × Ptr × Bool × Bool :=
  (vnode.isMountPoint, vnode.mountedVnode, vnode.isMounted, vnode.isCached)

/-- Both vnodes are as before, and so is every lookup below the mount point. -/
structure Restored (path : List Char) (mountPoint mounted : Ptr) (before after : VnodeMemory) :
    Prop where
  mountPoint : (after mountPoint).mountState = (before mountPoint).mountState
  mounted : (after mounted).mountState = (before mounted).mountState
  lookups : ∀ rest, (vnodeLookup lookup places after (path ++ rest)).map Prod.snd =
    (vnodeLookup lookup places before (path ++ rest)).map Prod.snd

/-- What is mounted on a mount point knows that it is mounted. -/
def MountsMarked (memory : VnodeMemory) : Prop :=
  ∀ vnode, (memory vnode).isMountPoint = true →
    (memory (memory vnode).mountedVnode).isMounted = true

/-- The three fields that only mounts and unmounts write. -/
structure SameMounts (before after : Vnode) : Prop where
  isMountPoint : after.isMountPoint = before.isMountPoint
  mountedVnode : after.mountedVnode = before.mountedVnode
  isMounted : after.isMounted = before.isMounted

/-- The lookup of a file system leaves the mounts alone. An address that it allocates a vnode at holds
zeros before, as memory that was never used does. -/
def KeepsMounts : Prop :=
  ∀ memory vnode token after found, lookup memory vnode token = some (after, found) →
    ∀ other, SameMounts (memory other) (after other)

variable {lookup places}

theorem SameMounts.refl (vnode : Vnode) : SameMounts vnode vnode := ⟨rfl, rfl, rfl⟩

theorem SameMounts.trans {first second third : Vnode} (hfirst : SameMounts first second)
    (hsecond : SameMounts second third) : SameMounts first third :=
  ⟨hsecond.isMountPoint.trans hfirst.isMountPoint, hsecond.mountedVnode.trans hfirst.mountedVnode,
    hsecond.isMounted.trans hfirst.isMounted⟩

variable {memory mem after : VnodeMemory} {vnode found mountPoint mounted : Ptr} {path : List Char}

theorem SameMounts.update {changed : Vnode}
    (hchanged : SameMounts (mem vnode) changed) (other : Ptr) :
    SameMounts (mem other) (update mem vnode changed other) := by
  by_cases hsame : other = vnode
  · subst hsame
    rwa [update_self]
  · rw [update_of_ne hsame]
    exact .refl _

theorem sameMounts_findVnodeChild (hkeeps : KeepsMounts lookup) {token : List Char}
    (hfind : findVnodeChild lookup mem vnode token = some (after, found)) (other : Ptr) :
    SameMounts (mem other) (after other) := by
  rw [findVnodeChild] at hfind
  split at hfind
  · obtain ⟨rfl, -⟩ := mk.inj (some.inj hfind)
    exact .refl _
  · simp only at hfind
    split at hfind
    · obtain ⟨⟨filled, child⟩, hlookup, hfind⟩ := bind_eq_some_iff.mp hfind
      obtain ⟨rfl, -⟩ := mk.inj (some.inj hfind)
      refine (hkeeps _ _ _ _ _ hlookup other).trans (SameMounts.update ?_ other)
      exact ⟨rfl, rfl, rfl⟩
    · obtain ⟨first, -, hfind⟩ := bind_eq_some_iff.mp hfind
      obtain ⟨child, -, hfind⟩ := bind_eq_some_iff.mp hfind
      obtain ⟨rfl, -⟩ := mk.inj (some.inj hfind)
      refine SameMounts.update ?_ other
      exact ⟨rfl, rfl, rfl⟩

theorem parseLoop_spec (hkeeps : KeepsMounts lookup) {path : List Char} :
    ∀ {fuel tokenNumber : ℕ} {mem after : VnodeMemory} {vnode found : Ptr},
      parseLoop lookup path fuel tokenNumber mem vnode = some (after, found) →
      (∀ other, SameMounts (mem other) (after other)) ∧
        (found ≠ NULL → (after found).isMountPoint = true →
          ∃ mountPoint, (after mountPoint).isMountPoint = true ∧
            (after mountPoint).mountedVnode = found)
  | 0, _, _, _, _, _, hparse => by cases hparse
  | fuel + 1, _, mem, after, vnode, found, hparse => by
      obtain ⟨⟨token, last⟩, -, hround⟩ := bind_eq_some_iff.mp hparse
      obtain ⟨⟨next, child⟩, hfind, hrest⟩ := bind_eq_some_iff.mp hround
      have hnext := sameMounts_findVnodeChild hkeeps hfind
      simp only at hrest
      split at hrest
      · cases hrest
        exact ⟨hnext, fun hnull ↦ absurd rfl hnull⟩
      · split at hrest
        · cases hrest
          refine ⟨hnext, fun _ hmountPoint ↦ ?_⟩
          rw [enter] at hmountPoint ⊢
          split at hmountPoint
          · rename_i hchild
            exact ⟨child, hchild, by rw [if_pos hchild]⟩
          · rename_i hchild
            exact absurd hmountPoint hchild
        · obtain ⟨hsame, hends⟩ := parseLoop_spec hkeeps hrest
          exact ⟨fun other ↦ (hnext other).trans (hsame other), hends⟩

theorem sameMounts_vnodeLookup (hkeeps : KeepsMounts lookup)
    (hlookup : vnodeLookup lookup places mem path = some (after, found)) (other : Ptr) :
    SameMounts (mem other) (after other) := by
  simp only [vnodeLookup] at hlookup
  split at hlookup
  · obtain ⟨rfl, -⟩ := mk.inj (some.inj hlookup)
    exact .refl _
  · exact (parseLoop_spec hkeeps hlookup).1 other

theorem exists_mountPoint_of_vnodeLookup (hkeeps : KeepsMounts lookup) (hpath : path ≠ [])
    (hlookup : vnodeLookup lookup places mem path = some (after, found)) (hnull : found ≠ NULL)
    (hmountPoint : (after found).isMountPoint = true) :
    ∃ mountPoint, (after mountPoint).isMountPoint = true ∧
      (after mountPoint).mountedVnode = found := by
  simp only [vnodeLookup] at hlookup
  split at hlookup
  · rename_i hslashes
    -- a path of slashes starts with one
    have hhead : path.head? = some '/' := by
      obtain ⟨c, rest, rfl⟩ := List.exists_cons_of_ne_nil hpath
      by_contra hc
      have hc : c ≠ '/' := fun h ↦ hc (by rw [h]; rfl)
      simp [hc] at hslashes
    cases hlookup
    rw [if_pos hhead, enter] at hmountPoint ⊢
    split at hmountPoint
    · rename_i hroot
      exact ⟨places.vfsRoot, hroot, by rw [if_pos hroot]⟩
    · rename_i hroot
      exact absurd hmountPoint hroot
  · exact (parseLoop_spec hkeeps hlookup).2 hnull hmountPoint

theorem MountsMarked.congr (hmarked : MountsMarked mem)
    (hsame : ∀ other, SameMounts (mem other) (after other)) : MountsMarked after := by
  intro vnode hmountPoint
  rw [(hsame vnode).isMountPoint] at hmountPoint
  rw [(hsame vnode).mountedVnode, (hsame _).isMounted]
  exact hmarked vnode hmountPoint

/-- What a mount does to the three fields. -/
structure Mounted (before after : VnodeMemory) (mountPoint mounted : Ptr) : Prop where
  free : (before mountPoint).isMountPoint = false
  isMountPoint : (after mountPoint).isMountPoint = true
  mountedVnode : (after mountPoint).mountedVnode = mounted
  isMounted : (after mounted).isMounted = true
  others : ∀ vnode, vnode ≠ mountPoint → (after vnode).isMountPoint = (before vnode).isMountPoint ∧
    (after vnode).mountedVnode = (before vnode).mountedVnode
  unmounted : ∀ vnode, vnode ≠ mounted → (after vnode).isMounted = (before vnode).isMounted

theorem vnodeMount_spec (hmount : vnodeMount mem mountPoint mounted = some after) :
    Mounted mem after mountPoint mounted := by
  rw [vnodeMount] at hmount
  split at hmount
  · cases hmount
  split at hmount
  · cases hmount
  split at hmount
  · cases hmount
  rename_i hfree _ _
  cases hmount
  refine ⟨Bool.eq_false_iff.mpr hfree, by simp, by simp, ?_, fun vnode hne ↦ ?_, fun vnode hne ↦ ?_⟩
  · by_cases hsame : mounted = mountPoint
    · simp [hsame]
    · simp [update_of_ne hsame]
  · rw [update_of_ne hne]
    by_cases hsame : vnode = mounted
    · simp [hsame]
    · simp [update_of_ne hsame]
  · by_cases hsame : vnode = mountPoint
    · simp [hsame, update_of_ne (hsame ▸ hne)]
    · rw [update_of_ne hsame, update_of_ne hne]

theorem Mounted.mountsMarked {before : VnodeMemory}
    (hmounted : Mounted before after mountPoint mounted) (hmarked : MountsMarked before) :
    MountsMarked after := by
  intro vnode hmountPoint
  have hkept : ∀ other, (before other).isMounted = true → (after other).isMounted = true := by
    intro other hother
    by_cases hsame : other = mounted
    · rw [hsame, hmounted.isMounted]
    · rw [hmounted.unmounted other hsame, hother]
  by_cases hsame : vnode = mountPoint
  · rw [hsame, hmounted.mountedVnode, hmounted.isMounted]
  · obtain ⟨hflag, hpointer⟩ := hmounted.others vnode hsame
    rw [hpointer]
    exact hkept _ (hmarked vnode (hflag ▸ hmountPoint))

theorem vnodeUnmount_spec (hunmount : vnodeUnmount mem vnode = (after, .KERN_SUCCESS)) :
    (mem vnode).isMountPoint = true ∧
      (∀ other, other ≠ vnode → (after other).isMountPoint = (mem other).isMountPoint) ∧
      ∀ other, (after other).isMounted = (mem other).isMounted := by
  rw [vnodeUnmount] at hunmount
  split at hunmount
  · cases hunmount
  · rename_i hmountPoint
    obtain ⟨rfl, -⟩ := mk.inj hunmount
    refine ⟨by simpa using hmountPoint, fun other hne ↦ ?_, fun other ↦ ?_⟩
    · rw [update_of_ne hne]
      by_cases hsame : other = (mem vnode).mountedVnode
      · rw [hsame, update_self]
      · rw [update_of_ne hsame]
    · have hpar : ∀ other, (update mem (mem vnode).mountedVnode
          { mem (mem vnode).mountedVnode with vnodeParent := NULL } other).isMounted =
          (mem other).isMounted := by
        intro other
        by_cases hsame : other = (mem vnode).mountedVnode
        · rw [hsame, update_self]
        · rw [update_of_ne hsame]
      by_cases hsame : other = vnode
      · rw [hsame, update_self]
        exact hpar vnode
      · rw [update_of_ne hsame, hpar]

theorem mount_eq_success {first second : VnodeMemory} {other : List Char}
    (hfirst : vnodeLookup lookup places mem path = some (first, mountPoint))
    (hsecond : vnodeLookup lookup places first other = some (second, mounted))
    (hmount : mount lookup places mem path other = some (after, .KERN_SUCCESS)) :
    vnodeMount second mountPoint mounted = some after := by
  rw [mount, hfirst, bind_eq_bind, bind_some] at hmount
  simp only at hmount
  split at hmount
  · cases hmount
  rw [hsecond, bind_some] at hmount
  split at hmount
  · cases hmount
  obtain ⟨third, hthird, hreturn⟩ := bind_eq_some_iff.mp hmount
  obtain ⟨rfl, -⟩ := mk.inj (some.inj hreturn)
  exact hthird

/-- A root with the empty directories `a` and `b`, all of them cached. -/
def siblings : VnodeMemory := fun vnode ↦
  { vnodeParent := if vnode = 1 then NULL else 1
    vnodeChildren := some fun index ↦
      if vnode = 1 ∧ index.val = 0 then 2 else if vnode = 1 ∧ index.val = 1 then 3 else NULL
    numChildren := if vnode = 1 then 2 else 0
    vnodeName := if vnode = 2 then ['a'] else if vnode = 3 then ['b'] else []
    vnodeType := .directory
    isMountPoint := false
    mountedVnode := NULL
    isMounted := false
    isCached := true }

def noLookup : Lookup := fun _ _ _ ↦ none

end DionysOS.Filesystem.Mount
