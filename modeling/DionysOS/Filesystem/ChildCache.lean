import DionysOS.DataStructures.SinglyLinkedList
import DionysOS.Filesystem.Vfs

/-!
# The children arrays of cached directories

`vnode_create`, `vnode_remove` and `vnode_lookup` of `vfs.c` over a memory of vnodes, for directories
that are cached. A children array has room for 64 pointers; an access outside of it is `none`. A
path is given by its tokens.

Beside the memory, the machine records which vnodes are allocated, and for each vnode the children
that were created in it and not removed since. A panic or a null dereference stops the machine and
leaves the vnodes as they are.
-/

namespace DionysOS.Filesystem.ChildCache

open DataStructures Definitions.Strings Function
open Vfs (VnodeType VFS_MAX_NAME_LENGTH VNODE_MAX_DIRECTORY_ENTRIES)

abbrev ChildArray := Fin VNODE_MAX_DIRECTORY_ENTRIES → Ptr

/-- `struct vnode`, with `vnode_children` once it is allocated and `mounted_vnode` of a mount
point. -/
structure Vnode where
  vnodeParent : Ptr
  vnodeChildren : Option ChildArray
  numChildren : ℕ
  mountedVnode : Option Ptr
  isMounted : Bool
  vnodeName : List Char
  vnodeType : VnodeType
  vnodeActiveReferences : ℕ

abbrev VnodeMemory := Ptr → Vnode

def emptyArray : ChildArray := fun _ ↦ NULL

/-- `children[index]`. -/
def access (children : ChildArray) (index : ℕ) : Option Ptr :=
  if h : index < VNODE_MAX_DIRECTORY_ENTRIES then some (children ⟨index, h⟩) else none

/-- `children[index] = child`. -/
def store (children : ChildArray) (index : ℕ) (child : Ptr) : Option ChildArray :=
  if h : index < VNODE_MAX_DIRECTORY_ENTRIES then some (update children ⟨index, h⟩ child)
  else none

def Vnode.slots (vnode : Vnode) : ChildArray := vnode.vnodeChildren.getD emptyArray

def allocChildren (memory : VnodeMemory) (vnode : Ptr) : VnodeMemory :=
  update memory vnode { memory vnode with vnodeChildren := some (memory vnode).slots }

/-- The mounted vnode of a mount point, the vnode itself otherwise. -/
def enter (memory : VnodeMemory) (vnode : Ptr) : Ptr := (memory vnode).mountedVnode.getD vnode

def matchesToken (memory : VnodeMemory) (token : List Char) (child : Ptr) : Bool :=
  safeStrcmp (memory child).vnodeName token VFS_MAX_NAME_LENGTH

/-- The loop of `find_vnode_child`, with `remaining` rounds to go. -/
def searchLoop (memory : VnodeMemory) (children : ChildArray) (token : List Char) :
    ℕ → ℕ → Ptr → Option (Option Ptr)
  | 0, _, _ => some none
  | remaining + 1, index, child =>
      if child ≠ NULL ∧ matchesToken memory token child = true then some (some child)
      else do
        let child ← access children (index + 1)
        searchLoop memory children token remaining (index + 1) child

/-- `find_vnode_child` in a cached directory. -/
def findVnodeChild (memory : VnodeMemory) (vnode : Ptr) (token : List Char) :
    Option (VnodeMemory × Option Ptr) :=
  if (memory vnode).vnodeType ≠ .directory then some (memory, none)
  else do
    let vnode := enter memory vnode
    let memory := allocChildren memory vnode
    let children := (memory vnode).slots
    let child ← access children 0
    let found ← searchLoop memory children token (memory vnode).numChildren 0 child
    some (memory, found)

/-- The loop of `parse_path`. -/
def followPath : VnodeMemory → Ptr → List (List Char) → Option (VnodeMemory × Option Ptr)
  | memory, vnode, [] => some (memory, some (enter memory vnode))
  | memory, vnode, token :: tokens => do
      let (memory, child) ← findVnodeChild memory vnode token
      match child with
      | none => some (memory, none)
      | some child => followPath memory child tokens

/-- `vnode_lookup` and `parse_path`. -/
def vnodeLookup (vfsRoot : Ptr) (memory : VnodeMemory) (path : List (List Char)) :
    Option (VnodeMemory × Option Ptr) :=
  if path = [] then some (memory, some (enter memory vfsRoot))
  else followPath memory (enter memory vfsRoot) path

/-- The vnodes, those that are allocated, the children created in each and not removed, and whether
the kernel has stopped. -/
structure Machine where
  memory : VnodeMemory
  live : List Ptr
  liveChildren : Ptr → List Ptr
  halted : Bool

def Machine.halt (machine : Machine) : Machine := { machine with halted := true }

/-- `vnode_create`; `created` is what the file system's `create` returns. -/
def vnodeCreate (vfsRoot : Ptr) (machine : Machine) (path : List (List Char)) (name : List Char)
    (vnodeType : VnodeType) (created : Ptr) : Option Machine := do
  let (memory, found) ← vnodeLookup vfsRoot machine.memory path
  match found with
  | none => some { machine with memory := memory }
  | some parent =>
      if (memory parent).mountedVnode.isSome then some { machine with memory := memory }.halt
      else do
        let memory := allocChildren memory parent
        if created = NULL then some { machine with memory := memory }.halt
        else do
          let memory :=
            update memory created ⟨parent, none, 0, none, false, name, vnodeType, 0⟩
          let children ← store (memory parent).slots (memory parent).numChildren created
          let memory := update memory parent { memory parent with
            vnodeChildren := some children
            numChildren := ((memory parent).numChildren + 1) % 2 ^ 8 }
          let liveChildren := update machine.liveChildren created []
          some { machine with
            memory := memory
            live := created :: machine.live
            liveChildren :=
              update liveChildren parent (liveChildren parent ++ [created]) }

/-- The loop of `vnode_update_children_array`: the array without the vnode, or `none` inside if the
vnode is not in it. -/
def updateLoop (children : ChildArray) (vnode : Ptr) (size : ℕ) :
    ℕ → ℕ → Option (Option ChildArray)
  | 0, _ => some none
  | remaining + 1, index => do
      let child ← access children index
      if child = vnode then do
        let children ← store children index NULL
        let last ← access children size
        let children ← store children index last
        some (some children)
      else updateLoop children vnode size remaining (index + 1)

/-- `vnode_remove`: the file system's `remove`, `vnode_update_children_array` and `vnode_free`. -/
def vnodeRemove (machine : Machine) (target : Ptr) : Option Machine :=
  if target = NULL then some machine.halt
  else if (machine.memory target).mountedVnode.isSome then some machine.halt
  else if (machine.memory target).vnodeActiveReferences ≠ 0 then some machine
  else do
    let parent := (machine.memory target).vnodeParent
    if parent = NULL then some machine.halt
    else do
      let size := (machine.memory parent).numChildren
      let updated ← updateLoop (machine.memory parent).slots target size size 0
      match updated with
      | none => some machine.halt
      | some children => some { machine with
          memory := update machine.memory parent { machine.memory parent with
            vnodeChildren := some children
            numChildren := (size + (2 ^ 8 - 1)) % 2 ^ 8 }
          live := machine.live.erase target
          liveChildren := update machine.liveChildren parent
            ((machine.liveChildren parent).erase target) }

inductive Operation where
  | create (path : List (List Char)) (name : List Char) (vnodeType : VnodeType) (created : Ptr)
  | remove (target : Ptr)
  | lookup (path : List (List Char))
deriving DecidableEq, Repr

def step (vfsRoot : Ptr) (machine : Machine) (operation : Operation) : Option (Machine × Unit) :=
  if machine.halted then some (machine, ())
  else
    match operation with
    | .create path name vnodeType created => do
        some (← vnodeCreate vfsRoot machine path name vnodeType created, ())
    | .remove target => do some (← vnodeRemove machine target, ())
    | .lookup path => do
        let (memory, _) ← vnodeLookup vfsRoot machine.memory path
        some ({ machine with memory := memory }, ())

def cachedChildren (memory : VnodeMemory) (vnode : Ptr) : List Ptr :=
  (List.ofFn (memory vnode).slots).take (memory vnode).numChildren

/-- The array of every vnode has room for its children, and holds them and nothing else. -/
def CacheSound (machine : Machine) : Prop :=
  ∀ vnode ∈ machine.live,
    (machine.memory vnode).numChildren ≤ VNODE_MAX_DIRECTORY_ENTRIES ∧
      (cachedChildren machine.memory vnode).Nodup ∧ NULL ∉ cachedChildren machine.memory vnode ∧
      ∀ child, child ∈ cachedChildren machine.memory vnode ↔ child ∈ machine.liveChildren vnode

def resolve (memory : VnodeMemory) : Ptr → List (List Char) → Option Ptr
  | vnode, [] => some (enter memory vnode)
  | vnode, token :: tokens =>
      if (memory vnode).vnodeType = .directory then
        ((cachedChildren memory (enter memory vnode)).find? (matchesToken memory token)).bind
          fun child ↦ resolve memory child tokens
      else none

/-- Every directory on the way has room for another child, or a child that matches. -/
def Walkable (memory : VnodeMemory) : Ptr → List (List Char) → Prop
  | _, [] => True
  | vnode, token :: tokens => (memory vnode).vnodeType = .directory →
      ((memory (enter memory vnode)).numChildren < VNODE_MAX_DIRECTORY_ENTRIES ∨
        ∃ child ∈ cachedChildren memory (enter memory vnode), matchesToken memory token child) ∧
      ∀ child, (cachedChildren memory (enter memory vnode)).find? (matchesToken memory token) =
        some child → Walkable memory child tokens

def lookedUp (vfsRoot : Ptr) (memory : VnodeMemory) (path : List (List Char)) : Option Ptr :=
  if path = [] then some (enter memory vfsRoot)
  else resolve memory (enter memory vfsRoot) path

/-- What the file system's `create` promises: a new vnode. -/
def Fresh (machine : Machine) (created : Ptr) : Prop := created ∉ machine.live

/-- The condition on a call. A lookup does not run past a full array. A new vnode has room. What
is removed is the last child of a directory that is not full. -/
def Fits (vfsRoot : Ptr) (machine : Machine) : Operation → Prop
  | .create path _ _ created => Fresh machine created ∧
      Walkable machine.memory (enter machine.memory vfsRoot) path ∧
      ∀ parent, lookedUp vfsRoot machine.memory path = some parent →
        (machine.memory parent).numChildren < VNODE_MAX_DIRECTORY_ENTRIES
  | .remove target =>
      let parent := (machine.memory target).vnodeParent
      (machine.memory target).isMounted = false ∧ parent ∈ machine.live ∧
        (machine.memory parent).numChildren < VNODE_MAX_DIRECTORY_ENTRIES ∧
        (cachedChildren machine.memory parent).getLast? = some target
  | .lookup path => Walkable machine.memory (enter machine.memory vfsRoot) path

instance decidableWalkable (memory : VnodeMemory) :
    ∀ (path : List (List Char)) (vnode : Ptr), Decidable (Walkable memory vnode path)
  | [], _ => isTrue trivial
  | token :: tokens, vnode =>
      match hfind : (cachedChildren memory (enter memory vnode)).find? (matchesToken memory token) with
      | none => decidable_of_iff ((memory vnode).vnodeType = .directory →
          ((memory (enter memory vnode)).numChildren < VNODE_MAX_DIRECTORY_ENTRIES ∨
            ∃ child ∈ cachedChildren memory (enter memory vnode), matchesToken memory token child))
          (by simp [Walkable, hfind])
      | some child =>
          have : Decidable (Walkable memory child tokens) := decidableWalkable memory tokens child
          decidable_of_iff ((memory vnode).vnodeType = .directory →
            ((memory (enter memory vnode)).numChildren < VNODE_MAX_DIRECTORY_ENTRIES ∨
              ∃ child ∈ cachedChildren memory (enter memory vnode),
                matchesToken memory token child) ∧ Walkable memory child tokens)
          (by simp [Walkable, hfind])

instance decidableFits (vfsRoot : Ptr) (machine : Machine) :
    ∀ operation, Decidable (Fits vfsRoot machine operation)
  | .create path _ _ created =>
      match hfound : lookedUp vfsRoot machine.memory path with
      | none => decidable_of_iff (created ∉ machine.live ∧
          Walkable machine.memory (enter machine.memory vfsRoot) path)
          (by simp [Fits, Fresh, hfound])
      | some parent => decidable_of_iff (created ∉ machine.live ∧
          Walkable machine.memory (enter machine.memory vfsRoot) path ∧
          (machine.memory parent).numChildren < VNODE_MAX_DIRECTORY_ENTRIES)
          (by simp [Fits, Fresh, hfound])
  | .remove _ => instDecidableAnd
  | .lookup path => decidableWalkable machine.memory path (enter machine.memory vfsRoot)

end DionysOS.Filesystem.ChildCache
