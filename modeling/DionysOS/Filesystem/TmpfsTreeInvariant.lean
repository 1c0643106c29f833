import DionysOS.Filesystem.TmpfsTree

/-!
# Consistency of the tmpfs tree

The arrays of the directories, the tree of the superblock and the bitmap agree with the live nodes:
`Consistent`. Creation keeps that as long as there is room, and the data of files is no part of it.
`KeepsTree` is the condition on a call under which the tree stays consistent; what it asks of removals
is explained with them.
-/

namespace DionysOS.Filesystem.TmpfsTree

open DataStructures (Ptr NULL)
open Foundation.ByteRecords List Function Option State
open Tmpfs (PAGE_SIZE PAGES_PER_TMPFS_ENTRY PageListEntry TmpfsNode)
open Vfs (VnodeType VFS_MAX_NAME_LENGTH)

variable {others : ℕ → Bool} {state : State} {node address directory dir : Ptr} {number num : ℕ}

/-- The tree is consistent; `others` are the numbers that other file systems own. -/
structure Consistent (others : ℕ → Bool) (state : State) : Prop where
  entries : ∀ directory ∈ state.live, (state.nodes directory).nodeType = .directory →
    (state.children directory).Nodup ∧ ∀ node, node ∈ state.children directory ↔
      node ∈ state.live ∧ (state.nodes node).parent = directory
  nodeTree : ∀ number node, state.nodeTree number = some node ↔
    node ∈ state.live ∧ (state.nodes node).tmpfsNodeNumber = number
  bitmap : ∀ number, state.bitmap number = true ↔
    others number = true ∨ ∃ node ∈ state.live, (state.nodes node).tmpfsNodeNumber = number
  owned : ∀ node ∈ state.live, others (state.nodes node).tmpfsNodeNumber = false
  released : state.released ~ state.removed

/-- What the callers and `kmalloc` promise: vnodes belong to live nodes, files are created in
directories, and new nodes are apart from the live ones. -/
def Promised (state : State) : Operation → Prop
  | .create parent _ _ address =>
      (∃ node ∈ state.nodeTree parent.vnodeInodeNumber, node ∈ state.live ∧
        (state.nodes node).nodeType = .directory) ∧
      address ≠ NULL ∧ address < 2 ^ 64 ∧ address ∉ state.live
  | .write vnode write => ∃ node ∈ state.nodeTree vnode.vnodeInodeNumber, node ∈ state.live ∧
      (state.nodes node).nodeType = .file ∧
      (Tmpfs.step (state.nodes node).toTmpfsNode write).isSome
  | .remove vnode => ∃ node ∈ state.nodeTree vnode.vnodeInodeNumber, node ∈ state.live ∧
      (state.nodes node).nodeType = vnode.vnodeType

instance (state : State) : DecidablePred (Promised state)
  | .create .. => instDecidableAnd
  | .write .. => inferInstanceAs (Decidable (∃ _ ∈ _, _))
  | .remove _ => inferInstanceAs (Decidable (∃ _ ∈ _, _))

/-- The file has the entries of its page list that its size asks for. -/
def HasData (node : TmpfsNode) : Prop :=
  node.tmpfsNodeSize / (PAGE_SIZE * PAGES_PER_TMPFS_ENTRY) < node.pageList.length ∧
    ∀ entry ∈ node.pageList, entry.numberOfPages < PAGES_PER_TMPFS_ENTRY

instance (node : TmpfsNode) : Decidable (HasData node) := instDecidableAnd

/-- The node lies as many nodes behind the first child of its parent as its index says. -/
def AtIndex (state : State) (node : Ptr) : Prop :=
  let parent := state.nodes (state.nodes node).parent
  ∃ index < parent.tmpfsNodeSize, parent.entries index = node ∧
    parent.entries 0 + index * NODE_SIZE = node

instance (state : State) (node : Ptr) : Decidable (AtIndex state node) :=
  inferInstanceAs (Decidable (∃ _ < _, _))

/-- The condition under which a call keeps the tree consistent. -/
def KeepsTree (state : State) : Operation → Prop
  | .create parent name type _ =>
      name.length < VFS_MAX_NAME_LENGTH ∧ Creatable type ∧
      (firstFree state.bitmap NODE_NUMBERS 0).isSome ∧
      ∀ node ∈ state.nodeTree parent.vnodeInodeNumber,
        (state.nodes node).tmpfsNodeSize < MAX_TMPFS_ENTRIES
  | .write .. => True
  | .remove vnode => vnode.vnodeType = .file ∧
      ∀ node ∈ state.nodeTree vnode.vnodeInodeNumber,
        HasData (state.nodes node).toTmpfsNode ∧ AtIndex state node

instance (state : State) : DecidablePred (KeepsTree state)
  | .create .. => instDecidableAnd
  | .write .. => instDecidableTrue
  | .remove _ => instDecidableAnd

structure Sound (others : ℕ → Bool) (state : State) : Prop extends Consistent others state where
  nodup : state.live.Nodup
  address : ∀ node ∈ state.live, node ≠ NULL ∧ node < 2 ^ 64
  parent : ∀ node ∈ state.live, (state.nodes node).parent = NULL ∨
    (state.nodes node).parent ∈ state.live ∧
      (state.nodes (state.nodes node).parent).nodeType = .directory
  null : (state.nodes NULL).parent = NULL ∧ (state.nodes NULL).tmpfsNodeSize = 0
  room : ∀ node ∈ state.live, (state.nodes node).nodeType = .directory →
    (state.nodes node).tmpfsNodeSize ≤ MAX_TMPFS_ENTRIES

theorem sound_mkfs {bitmap : ℕ → Bool} {initial : State} (hne : address ≠ NULL)
    (hlt : address < 2 ^ 64) (hmkfs : mkfs bitmap address = some initial) :
    Sound bitmap initial := by
  obtain ⟨⟨num, state⟩, hget, hinitial⟩ := bind_eq_some_iff.mp hmkfs
  obtain ⟨found, hfound, hres⟩ := bind_eq_some_iff.mp hget
  cases hres
  cases hinitial
  have hfree := (firstFree_eq_some hfound).1
  refine ⟨⟨?_, ?_, ?_, ?_, .refl _⟩, nodup_singleton _, ?_, ?_, ?_, ?_⟩
  · simp [children, TmpfsNode.new, hne.symm]
  · intro num node
    simp [setNode, insertTreeNode, setBit, update_apply]
    grind
  · intro num
    simp [setNode, insertTreeNode, setBit, update_apply]
    grind
  · simpa using hfree
  · simpa using ⟨hne, hlt⟩
  · simp
  · simp [update_of_ne hne.symm, TmpfsNode.new]
  · simp [TmpfsNode.new]

def State.add (state : State) (address : Ptr) (child : Node) : State :=
  let parent := state.nodes child.parent
  { (((state.setBit child.tmpfsNodeNumber true).setNode address child).insertTreeNode
      child.tmpfsNodeNumber address).setNode child.parent { parent with
        entries := Function.update parent.entries parent.tmpfsNodeSize address
        tmpfsNodeSize := parent.tmpfsNodeSize + 1 } with
    live := address :: state.live }

theorem create_eq_add {parent : Vnode} {parentNode : Ptr} {name : List Char} {type : VnodeType}
    (hpar : state.nodeTree parent.vnodeInodeNumber = some parentNode)
    (htype : (state.nodes parentNode).nodeType = .directory)
    (hroom : (state.nodes parentNode).tmpfsNodeSize < MAX_TMPFS_ENTRIES)
    (hname : name.length < VFS_MAX_NAME_LENGTH) (hcreatable : Creatable type)
    (hnum : firstFree state.bitmap NODE_NUMBERS 0 = some num) (hne : parentNode ≠ address) :
    create state parent name type address =
      some (state.add address ⟨TmpfsNode.new, parentNode, name, num, type, fun _ ↦ NULL⟩,
        ⟨num, type⟩) := by
  have hfits : ¬ ((state.nodes parentNode).nodeType ≠ .directory ∨
      MAX_TMPFS_ENTRIES ≤ (state.nodes parentNode).tmpfsNodeSize) := by
    rintro (h | h)
    · exact h htype
    · omega
  simp only [create, hpar, conjureNewTmpfsNode, if_pos (And.intro hname hcreatable),
    nodeBitmapGet, hnum, bind_eq_bind, bind_some, insertIntoParentDirectoryEntries,
    insertTreeNode_nodes, setNode_nodes, setBit_nodes, update_self,
    update_of_ne hne, if_neg hfits]
  rfl

section Add

variable {child : Node}

theorem add_node (hne : node ≠ address) :
    ((state.add address child).nodes node).parent = (state.nodes node).parent ∧
      ((state.add address child).nodes node).tmpfsNodeNumber = (state.nodes node).tmpfsNodeNumber ∧
      ((state.add address child).nodes node).nodeType = (state.nodes node).nodeType := by
  by_cases hpar : node = child.parent
  · subst hpar
    simp [add]
  · simp [add, hpar, hne]

theorem add_nodes_self (hne : address ≠ child.parent) :
    (state.add address child).nodes address = child := by
  simp [add, hne]

theorem children_add_of_ne (hne : directory ≠ address) (hpar : directory ≠ child.parent) :
    (state.add address child).children directory = state.children directory := by
  simp [children, add, hne, hpar]

theorem children_add_parent :
    (state.add address child).children child.parent = state.children child.parent ++ [address] := by
  simp only [children, add, setNode_nodes, update_self,
    range_succ, map_append, map_cons, map_nil]
  congr 1
  refine map_congr_left fun idx hidx ↦ ?_
  rw [update_of_ne (mem_range.mp hidx).ne]

/-- The node can be added: it is new, has a number of its own, and its parent has room. -/
structure Addable (state : State) (address : Ptr) (child : Node) : Prop where
  nonnull : address ≠ NULL
  lt : address < 2 ^ 64
  fresh : address ∉ state.live
  number : state.bitmap child.tmpfsNodeNumber = false
  parent : child.parent ∈ state.live
  type : (state.nodes child.parent).nodeType = .directory
  room : (state.nodes child.parent).tmpfsNodeSize < MAX_TMPFS_ENTRIES
  empty : child.tmpfsNodeSize = 0

section

variable (hadd : Addable state address child)
include hadd

theorem Addable.ne : address ≠ child.parent :=
  fun h ↦ hadd.fresh (h ▸ hadd.parent)

theorem Addable.old (hnode : node ∈ state.live) :
    node ≠ address :=
  fun h ↦ hadd.fresh (h ▸ hnode)

theorem Addable.nodes_self :
    (state.add address child).nodes address = child :=
  add_nodes_self hadd.ne

end

section

variable (hsound : Sound others state) (hadd : Addable state address child)
include hsound hadd

theorem Sound.number_new :
    others child.tmpfsNodeNumber = false ∧
      ∀ node ∈ state.live, (state.nodes node).tmpfsNodeNumber ≠ child.tmpfsNodeNumber := by
  have hclear : ¬ (others child.tmpfsNodeNumber = true ∨
      ∃ node ∈ state.live, (state.nodes node).tmpfsNodeNumber = child.tmpfsNodeNumber) := by
    rw [← hsound.bitmap, hadd.number]
    exact Bool.false_ne_true
  refine ⟨by simpa using fun h ↦ hclear (.inl h), fun node hnode hsame ↦ ?_⟩
  exact hclear (.inr ⟨node, hnode, hsame⟩)

theorem Sound.parent_ne_new (hnode : node ∈ state.live) : (state.nodes node).parent ≠ address := by
  intro h
  rcases hsound.parent node hnode with hnull | ⟨hmem, -⟩
  · exact hadd.nonnull (h.symm.trans hnull)
  · exact hadd.fresh (h ▸ hmem)

theorem Sound.add_entries (hdir : directory ∈ address :: state.live)
    (hdirType : ((state.add address child).nodes directory).nodeType = .directory) :
    ((state.add address child).children directory).Nodup ∧
      ∀ node, node ∈ (state.add address child).children directory ↔
        node ∈ address :: state.live ∧
          ((state.add address child).nodes node).parent = directory := by
  have hself := hadd.nodes_self
  rcases mem_cons.mp hdir with rfl | hdir
  · have hnone : (state.add directory child).children directory = [] := by
      simp [children, hself, hadd.empty]
    refine ⟨by simp [hnone], fun node ↦ ⟨fun h ↦ by simp [hnone] at h, ?_⟩⟩
    rintro ⟨hnode, hpar⟩
    rcases mem_cons.mp hnode with rfl | hnode
    · rw [hself] at hpar
      exact absurd hpar.symm hadd.ne
    · rw [(add_node (hadd.old hnode)).1] at hpar
      exact absurd hpar (hsound.parent_ne_new hadd hnode)
  · have hne := hadd.old hdir
    rw [(add_node hne).2.2] at hdirType
    obtain ⟨hnodup, hmem⟩ := hsound.entries directory hdir hdirType
    have hnotChild : address ∉ state.children directory := fun h ↦ hadd.fresh ((hmem address).mp h).1
    by_cases hsame : directory = child.parent
    · subst hsame
      rw [children_add_parent]
      refine ⟨hnodup.append (nodup_singleton _) (by simpa using hnotChild), fun node ↦ ?_⟩
      rw [mem_append, mem_singleton, mem_cons, hmem]
      by_cases hnode : node = address
      · simp [hnode, hself]
      · simp [hnode, (add_node hnode).1]
    · rw [children_add_of_ne hne hsame]
      refine ⟨hnodup, fun node ↦ ?_⟩
      by_cases hnode : node = address
      · simp [hnode, hself, hnotChild, Ne.symm hsame]
      · simp [hnode, (add_node hnode).1, hmem]

theorem Sound.add_nodeTree (number : ℕ) (node : Ptr) :
    update state.nodeTree child.tmpfsNodeNumber (some address) number = some node ↔
      node ∈ address :: state.live ∧
        ((state.add address child).nodes node).tmpfsNodeNumber = number := by
  by_cases hnode : node = address
  · subst hnode
    rw [hadd.nodes_self]
    by_cases hsame : number = child.tmpfsNodeNumber
    · simp [hsame]
    · simp [hsame, Ne.symm hsame, hsound.nodeTree, hadd.fresh]
  · rw [(add_node hnode).2.1]
    by_cases hsame : number = child.tmpfsNodeNumber
    · subst hsame
      simpa [hnode, Ne.symm hnode] using (hsound.number_new hadd).2 node
    · simp [hsame, hnode, hsound.nodeTree]

theorem Sound.add_bitmap (number : ℕ) :
    update state.bitmap child.tmpfsNodeNumber true number = true ↔
      others number = true ∨ ∃ node ∈ address :: state.live,
        ((state.add address child).nodes node).tmpfsNodeNumber = number := by
  have hlive : (∃ node ∈ state.live,
      ((state.add address child).nodes node).tmpfsNodeNumber = number) ↔
      ∃ node ∈ state.live, (state.nodes node).tmpfsNodeNumber = number := by
    refine exists_congr fun node ↦ and_congr_right fun hnode ↦ ?_
    rw [(add_node (hadd.old hnode)).2.1]
  simp only [mem_cons, exists_eq_or_imp, hadd.nodes_self, hlive]
  by_cases hsame : number = child.tmpfsNodeNumber
  · simp [hsame]
  · simp [hsame, Ne.symm hsame, hsound.bitmap]

theorem Sound.add :
    Sound others (state.add address child) := by
  have hself := hadd.nodes_self
  refine ⟨⟨fun directory ↦ hsound.add_entries hadd, hsound.add_nodeTree hadd,
    hsound.add_bitmap hadd, ?_, hsound.released⟩, nodup_cons.mpr ⟨hadd.fresh, hsound.nodup⟩,
    ?_, ?_, ?_, ?_⟩
  · intro node hnode
    rcases mem_cons.mp hnode with rfl | hnode
    · rw [hself]
      exact (hsound.number_new hadd).1
    · rw [(add_node (hadd.old hnode)).2.1]
      exact hsound.owned node hnode
  · intro node hnode
    rcases mem_cons.mp hnode with rfl | hnode
    · exact ⟨hadd.nonnull, hadd.lt⟩
    · exact hsound.address node hnode
  · intro node hnode
    rcases mem_cons.mp hnode with rfl | hnode
    · rw [hself, (add_node hadd.ne.symm).2.2]
      exact .inr ⟨mem_cons_of_mem _ hadd.parent, hadd.type⟩
    · rw [(add_node (hadd.old hnode)).1]
      rcases hsound.parent node hnode with hnull | ⟨hmem, htype⟩
      · exact .inl hnull
      · rw [(add_node (hadd.old hmem)).2.2]
        exact .inr ⟨mem_cons_of_mem _ hmem, htype⟩
  · have hkept : (state.add address child).nodes NULL = state.nodes NULL := by
      simp [State.add, hadd.nonnull.symm, (hsound.address _ hadd.parent).1.symm]
    rw [hkept]
    exact hsound.null
  · intro node hnode htype
    rcases mem_cons.mp hnode with rfl | hnode
    · rw [hself, hadd.empty]
      exact Nat.zero_le _
    · rw [(add_node (hadd.old hnode)).2.2] at htype
      by_cases hsame : node = child.parent
      · subst hsame
        simpa [State.add] using Nat.succ_le_of_lt hadd.room
      · have hkept : (state.add address child).nodes node = state.nodes node := by
          simp [State.add, hsame, hadd.old hnode]
        rw [hkept]
        exact hsound.room node hnode htype

end

end Add

theorem Sound.setFile (hsound : Sound others state) (htype : (state.nodes address).nodeType = .file)
    (hnonnull : address ≠ NULL) (file : TmpfsNode) :
    Sound others (state.setNode address { state.nodes address with toTmpfsNode := file }) := by
  set after := state.setNode address { state.nodes address with toTmpfsNode := file } with hafter
  have hnode : ∀ node, (after.nodes node).parent = (state.nodes node).parent ∧
      (after.nodes node).tmpfsNodeNumber = (state.nodes node).tmpfsNodeNumber ∧
      (after.nodes node).nodeType = (state.nodes node).nodeType := by
    intro node
    by_cases hsame : node = address
    · simp [hafter, hsame]
    · simp [hafter, hsame]
  have hother : ∀ node, (state.nodes node).nodeType = .directory →
      after.nodes node = state.nodes node := by
    intro node hdir
    have hne : node ≠ address := by
      rintro rfl
      simp [htype] at hdir
    simp [hafter, hne]
  refine ⟨⟨fun dir hdir hdirType ↦ ?_, fun num node ↦ ?_, fun num ↦ ?_,
    fun node hmem ↦ ?_, hsound.released⟩, hsound.nodup, hsound.address, fun node hmem ↦ ?_, ?_,
    fun node hmem hnodeType ↦ ?_⟩
  · rw [(hnode dir).2.2] at hdirType
    simp only [children, hother dir hdirType, (hnode _).1]
    exact hsound.entries dir hdir hdirType
  · rw [(hnode node).2.1]
    exact hsound.nodeTree num node
  · simp only [(hnode _).2.1]
    exact hsound.bitmap num
  · rw [(hnode node).2.1]
    exact hsound.owned node hmem
  · rw [(hnode node).1, (hnode _).2.2]
    exact hsound.parent node hmem
  · rw [hafter, setNode_nodes, update_of_ne hnonnull.symm]
    exact hsound.null
  · rw [(hnode node).2.2] at hnodeType
    rw [hother node hnodeType]
    exact hsound.room node hmem hnodeType

end DionysOS.Filesystem.TmpfsTree
