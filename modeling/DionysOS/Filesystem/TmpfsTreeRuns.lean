import DionysOS.Filesystem.TmpfsTreeInvariant

/-!
# Removal from the tmpfs tree

Removal keeps the tree consistent only for files: an empty directory stays in the tree and in the
bitmap, and of a directory with children only the directory itself is passed to `kfree`. A file can
be removed only if it has data, and is found in its parent's array only if its address happens to lie
as many nodes behind the first child as its index says.
-/

namespace DionysOS.Filesystem.TmpfsTree

open DataStructures (Ptr NULL)
open Foundation ByteRecords PartialMachine List Function Option State
open Tmpfs (PAGES_PER_TMPFS_ENTRY PageListEntry)

variable {others : ℕ → Bool} {state : State} {node address dir : Ptr}

theorem findDirent_eq_some {node : ℕ} (hnode : node < 2 ^ 64) :
    ∀ (fuel distance cur index : ℕ), distance < fuel → cur ≠ NULL →
      cur + distance * NODE_SIZE = node → findDirent node fuel cur index =
        some (index + distance)
  | fuel + 1, 0, cur, index, _, hcur, hdistance => by
      rw [zero_mul, add_zero] at hdistance
      rw [findDirent, if_neg hcur, if_pos hdistance, add_zero]
  | fuel + 1, distance + 1, cur, index, hfuel, hcur, hdistance => by
      rw [add_mul, one_mul] at hdistance
      have hpos : 0 < NODE_SIZE := by decide
      have hnext : (cur + NODE_SIZE) % 2 ^ 64 = cur + NODE_SIZE :=
        Nat.mod_eq_of_lt (by omega)
      have hnonnull : cur + NODE_SIZE ≠ NULL := by
        rw [NULL]
        omega
      have hne : cur ≠ node := by omega
      rw [findDirent, if_neg hcur, if_neg hne, hnext,
        findDirent_eq_some hnode fuel distance _ _ (by omega) hnonnull (by omega)]
      congr 1
      omega

theorem freeEntries_eq_some : ∀ {count : ℕ} {entries : List PageListEntry}, count ≤ entries.length →
    (∀ entry ∈ entries, entry.numberOfPages < PAGES_PER_TMPFS_ENTRY) →
    freeEntries count entries = some ()
  | 0, _, _, _ => rfl
  | count + 1, [], hcount, _ => by simp at hcount
  | count + 1, entry :: entries, hcount, hpages => by
      have hrest := @freeEntries_eq_some count entries (by simpa using hcount)
        fun other hother ↦ hpages other (mem_cons_of_mem _ hother)
      simp [freeEntries, freePageListEntry, hpages entry mem_cons_self, hrest]

theorem Sound.eq_of_isAbove (hsound : Sound others state) (hne : node ≠ NULL)
    (htype : (state.nodes node).nodeType ≠ .directory) :
    ∀ (fuel : ℕ) (cur : Ptr), cur ∈ state.live ∨ cur = NULL →
      state.isAbove node fuel cur = true → cur = node
  | 0, cur, _, habove => by simpa [isAbove] using habove
  | fuel + 1, cur, hcur, habove => by
      simp only [isAbove, Bool.or_eq_true, beq_iff_eq] at habove
      rcases habove with hsame | habove
      · exact hsame
      · exfalso
        rcases hcur with hlive | rfl
        · rcases hsound.parent cur hlive with hnull | ⟨hpar, hdir⟩
          · rw [hnull] at habove
            exact hne (hsound.eq_of_isAbove hne htype fuel NULL (Or.inr rfl) habove).symm
          · have hsame := hsound.eq_of_isAbove hne htype fuel _ (Or.inl hpar) habove
            exact htype (hsame ▸ hdir)
        · rw [hsound.null.1] at habove
          exact hne (hsound.eq_of_isAbove hne htype fuel NULL (Or.inr rfl) habove).symm

theorem Sound.subtree_file (hsound : Sound others state) (hnode : node ∈ state.live)
    (htype : (state.nodes node).nodeType ≠ .directory) : state.subtree node = [node] := by
  have hfilter : state.subtree node = state.live.filter (· == node) := by
    refine filter_congr fun cur hcur ↦ ?_
    rw [Bool.eq_iff_iff, beq_iff_eq]
    refine ⟨hsound.eq_of_isAbove (hsound.address node hnode).1 htype _ cur (.inl hcur), ?_⟩
    rintro rfl
    cases hlen : state.live.length <;> simp [isAbove]
  rw [hfilter, filter_beq, count_eq_one_of_mem hsound.nodup hnode]
  rfl

/-- The state without a file, which its parent has at an index. -/
def State.drop (state : State) (address : Ptr) (index : ℕ) : State :=
  let node := state.nodes address
  let parent := state.nodes node.parent
  let entries := Function.update parent.entries index NULL
  (((state.removeTreeNode node.tmpfsNodeNumber address).setBit node.tmpfsNodeNumber false).setNode
    node.parent { parent with
      entries := Function.update entries index (entries (parent.tmpfsNodeSize - 1))
      tmpfsNodeSize := parent.tmpfsNodeSize - 1 }).retire [address] address

theorem swapRemove_perm {entries moved : ℕ → Ptr} {size index : ℕ} (hidx : index < size)
    (hlast : index ≠ size - 1 → moved index = entries (size - 1))
    (hothers : ∀ other, other ≠ index → moved other = entries other) :
    (range size).map entries ~ entries index :: (range (size - 1)).map moved := by
  obtain ⟨count, rfl⟩ : ∃ count, size = count + 1 := ⟨size - 1, by omega⟩
  rw [Nat.add_sub_cancel] at hlast ⊢
  rw [range_succ, map_append, map_singleton]
  by_cases hsame : index = count
  · have hkept : (range count).map moved = (range count).map entries :=
      map_congr_left fun other hother ↦ hothers other (by
        have := mem_range.mp hother
        omega)
    rw [hkept, hsame]
    exact perm_append_singleton ..
  · have hset : (range count).map moved =
        ((range count).map entries).set index (entries count) := by
      refine ext_getElem (by simp) fun other hother _ ↦ ?_
      by_cases hother' : index = other
      · subst hother'
        simp [hlast hsame]
      · simp [hother', hothers other (Ne.symm hother')]
    have hlen : index < ((range count).map entries).length := by
      rw [length_map, length_range]
      omega
    have hsplit := (getElem_cons_eraseIdx_perm hlen).symm
    rw [getElem_map, getElem_range] at hsplit
    rw [hset]
    calc (range count).map entries ++ [entries count]
        ~ entries count :: (range count).map entries := perm_append_singleton ..
      _ ~ entries count :: entries index :: ((range count).map entries).eraseIdx index :=
          hsplit.cons _
      _ ~ entries index :: entries count :: ((range count).map entries).eraseIdx index :=
          Perm.swap ..
      _ ~ entries index :: ((range count).map entries).set index (entries count) :=
          (set_perm_cons_eraseIdx hlen _).symm.cons _

section Drop

variable {index : ℕ}

/-- The node is a live file that its parent has at the index. -/
structure Droppable (state : State) (address : Ptr) (index : ℕ) : Prop where
  live : address ∈ state.live
  type : (state.nodes address).nodeType = .file
  index_lt : index < (state.nodes (state.nodes address).parent).tmpfsNodeSize
  entry : (state.nodes (state.nodes address).parent).entries index = address

theorem drop_node (state : State) (address node : Ptr) (index : ℕ) :
    ((state.drop address index).nodes node).parent = (state.nodes node).parent ∧
      ((state.drop address index).nodes node).tmpfsNodeNumber = (state.nodes node).tmpfsNodeNumber ∧
      ((state.drop address index).nodes node).nodeType = (state.nodes node).nodeType := by
  by_cases hpar : node = (state.nodes address).parent
  · simp [State.drop, hpar]
  · simp [State.drop, hpar]

theorem mem_drop_live : node ∈ (state.drop address index).live ↔
    node ∈ state.live ∧ node ≠ address := by
  simp [State.drop]

theorem children_drop_of_ne (hne : directory ≠ (state.nodes address).parent) :
    (state.drop address index).children directory = state.children directory := by
  simp [State.children, State.drop, hne]

theorem children_drop_parent (hdrop : Droppable state address index) :
    state.children (state.nodes address).parent ~
      address :: (state.drop address index).children (state.nodes address).parent := by
  have hswap := @swapRemove_perm (state.nodes (state.nodes address).parent).entries
    ((state.drop address index).nodes (state.nodes address).parent).entries _ index hdrop.index_lt
    (fun hne ↦ by simp [State.drop, hne.symm])
    (fun other hne ↦ by simp [State.drop, hne])
  rw [hdrop.entry] at hswap
  simpa [State.children, State.drop] using hswap

section

variable (hsound : Sound others state) (hdrop : Droppable state address index)
include hsound hdrop

theorem Sound.parent_of_droppable :
    (state.nodes address).parent ∈ state.live ∧
      (state.nodes (state.nodes address).parent).nodeType = .directory := by
  refine (hsound.parent address hdrop.live).resolve_left fun hnull ↦ ?_
  have hidx := hdrop.index_lt
  rw [hnull, hsound.null.2] at hidx
  exact Nat.not_lt_zero _ hidx

theorem Sound.remove_eq_drop (hdata : HasData (state.nodes address).toTmpfsNode)
    (hstride : (state.nodes (state.nodes address).parent).entries 0 + index * NODE_SIZE = address)
    {fuel : ℕ} (hfuel : MAX_TMPFS_ENTRIES ≤ fuel) {vnode : Vnode}
    (hvnode : state.nodeTree vnode.vnodeInodeNumber = some address)
    (htype : vnode.vnodeType = .file) :
    remove fuel state vnode = some (state.drop address index) := by
  obtain ⟨hparentLive, hparentType⟩ := hsound.parent_of_droppable hdrop
  have hparentNonnull := (hsound.address _ hparentLive).1
  have hroom := hsound.room _ hparentLive hparentType
  have hidx := hdrop.index_lt
  have hfirst : (state.nodes (state.nodes address).parent).entries 0 ≠ NULL := by
    have hmem : (state.nodes (state.nodes address).parent).entries 0 ∈
        state.children (state.nodes address).parent :=
      mem_map_of_mem (mem_range.mpr (Nat.zero_lt_of_lt hidx))
    exact (hsound.address _ (((hsound.entries _ hparentLive hparentType).2 _).mp hmem).1).1
  have hpages : removeAllDataPages (state.nodes address) = some () :=
    freeEntries_eq_some hdata.1 hdata.2
  have hfind : findDirent address fuel ((state.nodes (state.nodes address).parent).entries 0) 0 =
      some index := by
    have := findDirent_eq_some (hsound.address address hdrop.live).2 fuel index _ 0 (by omega) hfirst
      hstride
    rwa [zero_add] at this
  have hsubtree : state.subtree address = [address] :=
    hsound.subtree_file hdrop.live (by simp [hdrop.type])
  have hbounds : ¬ (MAX_TMPFS_ENTRIES ≤ index ∨
      (state.nodes (state.nodes address).parent).tmpfsNodeSize = 0) := by omega
  simp [remove, hvnode, htype, deleteRegFile, hpages, nodeBitmapFree,
    removeDirentInParentDirectory, hparentNonnull, hfind, hbounds, hsubtree, State.drop]

theorem Sound.drop_entries
    (hdir : directory ∈ state.live) (htype : (state.nodes directory).nodeType = .directory) :
    ((state.drop address index).children directory).Nodup ∧
      ∀ node, node ∈ (state.drop address index).children directory ↔
        (node ∈ state.live ∧ node ≠ address) ∧ (state.nodes node).parent = directory := by
  obtain ⟨hnodup, hmem⟩ := hsound.entries directory hdir htype
  by_cases hsame : directory = (state.nodes address).parent
  · subst hsame
    have hperm := children_drop_parent hdrop
    have hrest := nodup_cons.mp (hperm.nodup_iff.mp hnodup)
    refine ⟨hrest.2, fun node ↦ ?_⟩
    have hnode := (hmem node).symm.trans hperm.mem_iff
    rw [mem_cons] at hnode
    constructor
    · intro hchild
      have hne : node ≠ address := fun h ↦ hrest.1 (h ▸ hchild)
      have hold := hnode.mpr (.inr hchild)
      exact ⟨⟨hold.1, hne⟩, hold.2⟩
    · rintro ⟨⟨hlive, hne⟩, hpar⟩
      exact (hnode.mp ⟨hlive, hpar⟩).resolve_left hne
  · rw [children_drop_of_ne hsame]
    refine ⟨hnodup, fun node ↦ ?_⟩
    rw [hmem]
    constructor
    · rintro ⟨hlive, hpar⟩
      exact ⟨⟨hlive, fun h ↦ hsame (h ▸ hpar.symm)⟩, hpar⟩
    · rintro ⟨⟨hlive, -⟩, hpar⟩
      exact ⟨hlive, hpar⟩

theorem Sound.drop :
    Sound others (state.drop address index) := by
  obtain ⟨hparentLive, -⟩ := hsound.parent_of_droppable hdrop
  have hnode := fun node ↦ drop_node state address node index
  have hunique : ∀ node ∈ state.live, (state.nodes node).tmpfsNodeNumber =
      (state.nodes address).tmpfsNodeNumber → node = address := by
    intro node hlive hsame
    have hone := (hsound.nodeTree _ node).mpr ⟨hlive, hsame⟩
    have htwo := (hsound.nodeTree _ address).mpr ⟨hdrop.live, rfl⟩
    exact some.inj (hone.symm.trans htwo)
  have htree : (state.drop address index).nodeTree =
      update state.nodeTree (state.nodes address).tmpfsNodeNumber none := by
    simp [State.drop, (hsound.nodeTree _ address).mpr ⟨hdrop.live, rfl⟩]
  have hbits : (state.drop address index).bitmap =
      update state.bitmap (state.nodes address).tmpfsNodeNumber false := rfl
  refine ⟨⟨fun dir hdir htype ↦ ?_, fun num node ↦ ?_, fun num ↦ ?_,
    fun node hlive ↦ ?_, ?_⟩, hsound.nodup.filter _, fun node hlive ↦ ?_, fun node hlive ↦ ?_, ?_,
    fun node hlive htype ↦ ?_⟩
  · rw [(hnode dir).2.2] at htype
    simp only [mem_drop_live, (hnode _).1]
    exact hsound.drop_entries hdrop (mem_drop_live.mp hdir).1 htype
  · rw [htree, mem_drop_live, (hnode node).2.1]
    by_cases hsame : num = (state.nodes address).tmpfsNodeNumber
    · subst hsame
      simp only [update_self, reduceCtorEq, false_iff]
      rintro ⟨⟨hlive, hne⟩, hsame⟩
      exact hne (hunique node hlive hsame)
    · rw [update_of_ne hsame, hsound.nodeTree]
      constructor
      · rintro ⟨hlive, rfl⟩
        exact ⟨⟨hlive, fun h ↦ hsame (h ▸ rfl)⟩, rfl⟩
      · rintro ⟨⟨hlive, -⟩, hnum⟩
        exact ⟨hlive, hnum⟩
  · rw [hbits]
    simp only [mem_drop_live, (hnode _).2.1]
    by_cases hsame : num = (state.nodes address).tmpfsNodeNumber
    · subst hsame
      simp only [update_self, Bool.false_eq_true, hsound.owned address hdrop.live, false_or,
        false_iff]
      rintro ⟨node, ⟨hlive, hne⟩, hsame⟩
      exact hne (hunique node hlive hsame)
    · rw [update_of_ne hsame, hsound.bitmap]
      refine or_congr_right (exists_congr fun node ↦ ?_)
      constructor
      · rintro ⟨hlive, rfl⟩
        exact ⟨⟨hlive, fun h ↦ hsame (h ▸ rfl)⟩, rfl⟩
      · rintro ⟨⟨hlive, -⟩, hnum⟩
        exact ⟨hlive, hnum⟩
  · rw [(hnode node).2.1]
    exact hsound.owned node (mem_drop_live.mp hlive).1
  · exact hsound.released.append_right _
  · exact hsound.address node (mem_drop_live.mp hlive).1
  · rw [(hnode node).1, (hnode _).2.2, mem_drop_live]
    refine (hsound.parent node (mem_drop_live.mp hlive).1).imp_right fun ⟨hpar, htype⟩ ↦ ?_
    refine ⟨⟨hpar, fun hsame ↦ ?_⟩, htype⟩
    rw [hsame, hdrop.type] at htype
    cases htype
  · have hkept : (state.drop address index).nodes NULL = state.nodes NULL := by
      simp [State.drop, (hsound.address _ hparentLive).1.symm]
    rw [hkept]
    exact hsound.null
  · rw [(hnode node).2.2] at htype
    have hroom := hsound.room node (mem_drop_live.mp hlive).1 htype
    by_cases hsame : node = (state.nodes address).parent
    · subst hsame
      simpa [State.drop] using (Nat.sub_le ..).trans hroom
    · simpa [State.drop, hsame] using hroom

end

end Drop

/-- **One call.** A call that meets its condition returns, and keeps the tree consistent. -/
theorem Sound.step (hsound : Sound others state) {fuel : ℕ} (hfuel : MAX_TMPFS_ENTRIES ≤ fuel)
    {op : Operation} (hprom : Promised state op)
    (hkeeps : KeepsTree state op) :
    ∃ next out, TmpfsTree.step fuel state op = some (next, out) ∧ Sound others next := by
  cases op with
  | create parent name type address =>
    obtain ⟨⟨parentNode, hpar, hlive, htype⟩, hnonnull, hlt, hfresh⟩ := hprom
    obtain ⟨hname, hcreatable, hfree, hroom⟩ := hkeeps
    obtain ⟨num, hnum⟩ := isSome_iff_exists.mp hfree
    have hne : parentNode ≠ address := fun h ↦ hfresh (h ▸ hlive)
    have hcreate := create_eq_add hpar htype (hroom _ hpar) hname hcreatable hnum hne
    refine ⟨_, _, by rw [TmpfsTree.step, hcreate, map_some], hsound.add ?_⟩
    exact ⟨hnonnull, hlt, hfresh, (firstFree_eq_some hnum).1, hlive, htype, hroom _ hpar, rfl⟩
  | write vnode data =>
    obtain ⟨node, hnode, hlive, htype, hret⟩ := hprom
    obtain ⟨⟨file, written⟩, hfile⟩ := isSome_iff_exists.mp hret
    have hwrite : write state vnode data =
        some (state.setNode node { state.nodes node with toTmpfsNode := file }) := by
      simp [write, mem_def.mp hnode, hfile]
    exact ⟨_, _, by rw [TmpfsTree.step, hwrite, map_some],
      hsound.setFile htype (hsound.address node hlive).1 file⟩
  | remove vnode =>
    obtain ⟨node, hnode, hlive, htype⟩ := hprom
    obtain ⟨hfile, hnodes⟩ := hkeeps
    obtain ⟨hdata, index, hidx, hentry, hstride⟩ := hnodes node hnode
    have hdrop : Droppable state node index := ⟨hlive, htype.trans hfile, hidx, hentry⟩
    have hremove := hsound.remove_eq_drop hdrop hdata hstride hfuel hnode hfile
    exact ⟨_, _, by rw [TmpfsTree.step, hremove, map_some], hsound.drop hdrop⟩

/-- **Consistency.** From a new file system, every run whose calls meet their conditions returns,
and leaves the directories, the tree, the bitmap and the live nodes in agreement. -/
theorem run_treeConsistent {bitmap : ℕ → Bool} {root : Ptr} {initial : State} (hnonnull : root ≠ NULL)
    (hlt : root < 2 ^ 64) (hmkfs : mkfs bitmap root = some initial) {fuel : ℕ}
    (hfuel : MAX_TMPFS_ENTRIES ≤ fuel) {operations : List Operation}
    (hguarded : Guarded (step fuel) (fun state operation ↦
      Promised state operation ∧ KeepsTree state operation) initial operations) :
    ∃ final outs, run (step fuel) initial operations = some (final, outs) ∧
      Consistent bitmap final := by
  obtain ⟨final, outs, hrun, hsound⟩ := run_invariant
    (fun state operation (hsound : Sound bitmap state) hguard ↦
      hsound.step hfuel hguard.1 hguard.2) operations initial (sound_mkfs hnonnull hlt hmkfs) hguarded
  exact ⟨final, outs, hrun, hsound.toConsistent⟩

def newTree : State := (mkfs (fun _ ↦ false) 1024).get (by decide)

/-- Two files are made in a directory, get some data and are removed, the second one first. -/
def twoFiles : List Operation :=
  [.create ⟨0, .directory⟩ ['d'] .directory 2048,
    .create ⟨1, .directory⟩ ['f'] .file 4096, .create ⟨1, .directory⟩ ['g'] .file 4288,
    .write ⟨2, .file⟩ ⟨0, [1, 2], ⟨fun _ ↦ 0, 0⟩⟩, .write ⟨3, .file⟩ ⟨0, [3], ⟨fun _ ↦ 0, 0⟩⟩,
    .remove ⟨3, .file⟩, .remove ⟨2, .file⟩]

theorem run_treeConsistent_twoFiles : ∃ final outs,
    run (step 64) newTree twoFiles = some (final, outs) ∧ Consistent (fun _ ↦ false) final :=
  run_treeConsistent (by decide) (by decide) (some_get _).symm (by decide) (by decide +kernel)

/-- An empty directory that was removed is still in the tree. -/
theorem run_not_treeConsistent :
    mkfs (fun _ ↦ false) 1024 = some newTree ∧
    Guarded (step 64) Promised newTree
      [.create ⟨0, .directory⟩ ['d'] .directory 2048, .remove ⟨1, .directory⟩] ∧
    ∃ final outs, run (step 64) newTree [.create ⟨0, .directory⟩ ['d'] .directory 2048,
      .remove ⟨1, .directory⟩] = some (final, outs) ∧ ¬ Consistent (fun _ ↦ false) final := by
  refine ⟨(some_get _).symm, by decide +kernel, exists_of_any (fun final _ ↦
    2048 ∉ final.live ∧ final.nodeTree 1 = some 2048) (by decide +kernel) ?_⟩
  rintro final - - ⟨hlive, htree⟩ hcons
  exact hlive ((hcons.nodeTree 1 2048).mp htree).1

end DionysOS.Filesystem.TmpfsTree
