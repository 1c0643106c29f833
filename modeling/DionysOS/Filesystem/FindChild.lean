import DionysOS.Filesystem.PathResolution

/-!
# The search for one component

`findVnodeChild_spec` says that `find_vnode_child` finds the first comparable entry that the code
sees, whether it is cached or has to be read from disk, and leaves it in the children array.
-/

namespace DionysOS.Filesystem.Vfs

open Definitions.Strings List Option Bool

/-- What a step of the walk leaves alone: the name, and whether the vnode is a mount point. -/
structure SameVnode (before after : Vnode) : Prop where
  name : after.vnodeName = before.vnodeName
  mounted : after.mountedVnode.isSome = before.mountedVnode.isSome

theorem SameVnode.refl (vnode : Vnode) : SameVnode vnode vnode := ⟨rfl, rfl⟩

theorem SameVnode.trans {first second third : Vnode} (h : SameVnode first second)
    (h' : SameVnode second third) : SameVnode first third :=
  ⟨h'.name.trans h.name, h'.mounted.trans h.mounted⟩

def comparable (token : List Char) (child : Vnode) : Bool :=
  safeStrcmp child.vnodeName token VFS_MAX_NAME_LENGTH

/-- The index that a search returns points to the child that it should find. -/
def Finds (children : List (Option Vnode)) (expected : Option Vnode) (found : Option ℕ) : Prop :=
  match expected with
  | none => found = none
  | some child => ∃ index, found = some index ∧ children[index]? = some (some child)

theorem findChild_spec (children : List (Option Vnode)) (token : List Char) :
    ∀ (remaining idx : ℕ), idx + remaining ≤ children.length →
      ∃ found, findChild children token remaining idx = some found ∧
        Finds children ((((children.drop idx).take remaining).filterMap id).find?
          (comparable token)) found
  | 0, idx, _ => ⟨none, rfl, by simp [Finds]⟩
  | remaining + 1, idx, hlen => by
      have hlt : idx < children.length := by omega
      obtain ⟨found, hfound, hrest⟩ := findChild_spec children token remaining (idx + 1) (by omega)
      have hget := getElem?_eq_getElem hlt
      rw [drop_eq_getElem_cons hlt, take_succ_cons]
      cases hchild : children[idx] with
      | none =>
        rw [hchild] at hget
        exact ⟨found, by simp [findChild, hget, hfound], by simpa using hrest⟩
      | some child =>
        rw [hchild] at hget
        by_cases hcomparable : safeStrcmp child.vnodeName token VFS_MAX_NAME_LENGTH = true
        · refine ⟨some idx, by simp [findChild, hget, hcomparable], ?_⟩
          simp [Finds, comparable, hcomparable, hget]
        · refine ⟨found, by simp [findChild, hget, hcomparable, hfound], ?_⟩
          simpa [comparable, hcomparable] using hrest

theorem findChild_replicate (token : List Char) (length : ℕ) : ∀ (remaining idx : ℕ),
    findChild (replicate length none) token remaining idx =
      if remaining = 0 ∨ idx + remaining ≤ length then some none else none
  | 0, idx => by simp [findChild]
  | remaining + 1, idx => by
      have hrest := findChild_replicate token length remaining (idx + 1)
      by_cases hlt : idx < length
      · have hget : (replicate length (none : Option Vnode))[idx]? = some none := by
          simp [hlt]
        have hiff : (remaining = 0 ∨ idx + 1 + remaining ≤ length) ↔
            (remaining + 1 = 0 ∨ idx + (remaining + 1) ≤ length) := by omega
        simp only [findChild, hget, hrest, hiff]
      · have hget : (replicate length (none : Option Vnode))[idx]? = none := by
          simp [not_lt.mp hlt]
        rw [if_neg (by omega)]
        simp only [findChild, hget]

theorem sameVnode_addChild (parent : Vnode) (idx : ℕ) (entry : DirectoryEntry) :
    SameVnode parent (addChild parent idx entry) := ⟨rfl, rfl⟩

theorem fillChildren_spec (name : List Char) :
    ∀ (entries : List DirectoryEntry) (index : ℕ) (parent : Vnode) (child : Option ℕ),
      index + entries.length ≤ parent.vnodeChildren.length →
      let result := fillChildren name true entries index parent child
      SameVnode parent result.1 ∧
        (∀ pos < index, result.1.vnodeChildren[pos]? = parent.vnodeChildren[pos]?) ∧
        (∀ pos entry, entries[pos]? = some entry →
          result.1.vnodeChildren[index + pos]? =
            some (some (diosfsDirectoryEntryToVnode entry))) ∧
        (∀ found, child = some found → result.2 = some found) ∧
        (child = none → match (entries.map diosfsDirectoryEntryToVnode).find? (comparable name) with
          | none => result.2 = none
          | some vnode => ∃ pos entry, result.2 = some (index + pos) ∧
              entries[pos]? = some entry ∧ diosfsDirectoryEntryToVnode entry = vnode)
  | [], index, parent, child, _ =>
      ⟨.refl _, fun _ _ ↦ rfl, by simp, fun _ h ↦ h, fun h ↦ by simpa [fillChildren] using h⟩
  | entry :: entries, index, parent, child, hlen => by
      rw [length_cons] at hlen
      have hset : (addChild parent index entry).vnodeChildren =
          parent.vnodeChildren.set index (some (diosfsDirectoryEntryToVnode entry)) := rfl
      have hname : safeStrcmp name entry.name VFS_MAX_NAME_LENGTH =
          comparable name (diosfsDirectoryEntryToVnode entry) := safeStrcmp_comm ..
      -- Either way the loop goes on with the entry in the array.
      have hstep : ∃ child', fillChildren name true (entry :: entries) index parent child =
          fillChildren name true entries (index + 1) (addChild parent index entry) child' ∧
          child' = if child = none ∧ comparable name (diosfsDirectoryEntryToVnode entry) = true then
            some index else child := by
        by_cases hfound : child = none ∧
            comparable name (diosfsDirectoryEntryToVnode entry) = true
        · exact ⟨some index, by simp [fillChildren, hname, hfound], by rw [if_pos hfound]⟩
        · exact ⟨child, by simp [fillChildren, hname, hfound], by rw [if_neg hfound]⟩
      obtain ⟨child', hloop, hchild'⟩ := hstep
      obtain ⟨hsame, hbefore, hplaces, hkeeps, hfinds⟩ := fillChildren_spec name entries (index + 1)
        (addChild parent index entry) child' (by rw [hset, length_set]; omega)
      simp only [hloop]
      refine ⟨(sameVnode_addChild ..).trans hsame, fun pos hposition ↦ ?_,
        fun pos entry' hentry' ↦ ?_, fun found hfound ↦ ?_, fun hnone ↦ ?_⟩
      · rw [hbefore pos (by omega), hset, getElem?_set_ne (by omega)]
      · cases pos with
        | zero =>
          obtain rfl : entry = entry' := by simpa using hentry'
          refine (hbefore index (Nat.lt_succ_self index)).trans ?_
          rw [hset, getElem?_set_self (by omega)]
        | succ pos =>
          rw [show index + (pos + 1) = index + 1 + pos by omega]
          exact hplaces pos entry' (by simpa using hentry')
      · have hchild : child' = some found := by rw [hchild', if_neg (by simp [hfound]), hfound]
        exact hkeeps found hchild
      · rw [map_cons, find?_cons]
        by_cases hcomparable : comparable name (diosfsDirectoryEntryToVnode entry) = true
        · have hchild : child' = some index := by rw [hchild', if_pos ⟨hnone, hcomparable⟩]
          simp only [hcomparable]
          exact ⟨0, entry, hkeeps index hchild, rfl, rfl⟩
        · have hchild : child' = none := by rw [hchild', if_neg (fun h ↦ hcomparable h.2), hnone]
          have hrest := hfinds hchild
          simp only [hcomparable]
          cases hfind : (entries.map diosfsDirectoryEntryToVnode).find? (comparable name) with
          | none => simpa [hfind] using hrest
          | some vnode =>
            simp only [hfind] at hrest
            obtain ⟨pos, entry', hres, hentry', hvnode⟩ := hrest
            exact ⟨pos + 1, entry', by rw [hres]; congr 1; omega, by simpa using hentry',
              hvnode⟩

section Component

variable {disk : Disk} {vnode : Vnode}

theorem sameVnode_allocChildren (vnode : Vnode) : SameVnode vnode (allocChildren vnode) := by
  unfold allocChildren
  split
  · exact .refl _
  · exact ⟨rfl, rfl⟩

theorem vnodeChildren_allocChildren (harray : vnode.vnodeChildren =
    if vnode.attributes.childMemoryAllocated then replicate VNODE_MAX_DIRECTORY_ENTRIES none
    else []) :
    (allocChildren vnode).vnodeChildren = replicate VNODE_MAX_DIRECTORY_ENTRIES none := by
  unfold allocChildren
  by_cases halloc : vnode.attributes.childMemoryAllocated = true
  · rw [if_pos halloc] at harray ⊢
    exact harray
  · rw [if_neg halloc]
    rfl

@[simp]
theorem numChildren_allocChildren (vnode : Vnode) :
    (allocChildren vnode).numChildren = vnode.numChildren := by
  unfold allocChildren
  split <;> rfl

theorem diosfsLookup_spec (token : List Char) (hsound : SoundDirectory disk vnode)
    (htype : vnode.vnodeType = .directory) (hcached : vnode.isCached = false)
    (hrecorded : vnode.numChildren = 0) :
    ∃ after found, diosfsLookup disk vnode token = some (after, found) ∧ SameVnode vnode after ∧
      Finds after.vnodeChildren
        ((((diskEntries disk vnode.vnodeInodeNumber).take VNODE_MAX_DIRECTORY_ENTRIES).map
          diosfsDirectoryEntryToVnode).find? (comparable token)) found := by
  simp only [SoundDirectory, hcached, false_eq_true, if_false] at hsound
  obtain ⟨hdiosfs, hinode, harray⟩ := hsound
  have hkind : ¬ (vnode.attributes.vnodeFilesystemId ≠ .diosfs ∨ vnode.vnodeType ≠ .directory) := by
    simp [hdiosfs, htype]
  by_cases hsize : (disk vnode.vnodeInodeNumber).size = 0
  · refine ⟨vnode, none, by simp only [diosfsLookup, if_neg hkind, if_pos hsize], .refl _, ?_⟩
    simp [diskEntries, hsize, Finds]
  · have hentries : diosfsGetDirectoryEntries (disk vnode.vnodeInodeNumber)
        (DIOSFS_BLOCKSIZE * NUM_BLOCKS_DIRECT) =
          some (.ok (diskEntries disk vnode.vnodeInodeNumber)) := by
      have hblocks : ¬ DIOSFS_BLOCKSIZE * NUM_BLOCKS_DIRECT <
          (disk vnode.vnodeInodeNumber).blockCount * DIOSFS_BLOCKSIZE := by
        exact not_lt.mpr (Nat.mul_le_mul_right _ hinode.blocks)
      simp only [diosfsGetDirectoryEntries, ne_eq, hinode.type, not_true_eq_false, if_false,
        if_neg hblocks, if_neg (not_lt.mpr hinode.size), diskEntries]
    have hnotEqual : (vnode.isCached || (vnode.numChildren == (disk vnode.vnodeInodeNumber).size &&
        (vnode.vnodeChildren.head?.join).isSome)) = false := by
      simp [hcached, hrecorded, Ne.symm hsize]
    let unread : Vnode :=
      .mk { vnode.attributes with isCached := false } vnode.vnodeChildren vnode.mountedVnode
    let parent := allocChildren unread
    have hpar : parent.vnodeChildren = replicate VNODE_MAX_DIRECTORY_ENTRIES none :=
      vnodeChildren_allocChildren harray
    have hshort : ((diskEntries disk vnode.vnodeInodeNumber).take
        (min (disk vnode.vnodeInodeNumber).size VNODE_MAX_DIRECTORY_ENTRIES)) =
          (diskEntries disk vnode.vnodeInodeNumber).take VNODE_MAX_DIRECTORY_ENTRIES := by
      rw [diskEntries, take_take, take_take]
      congr 1
      omega
    let entries := (diskEntries disk vnode.vnodeInodeNumber).take VNODE_MAX_DIRECTORY_ENTRIES
    have hlen : 0 + entries.length ≤ parent.vnodeChildren.length := by
      rw [hpar, length_replicate, zero_add]
      exact length_take_le ..
    obtain ⟨hsame, -, hplaces, -, hfinds⟩ := fillChildren_spec token entries 0 parent none hlen
    let result := fillChildren token true entries 0 parent none
    refine ⟨result.1, result.2, ?_, ?_, ?_⟩
    · simp only [diosfsLookup, if_neg hkind, if_neg hsize, hentries, hnotEqual, hshort,
        Bool.not_false]
      rfl
    · have hunread : SameVnode vnode unread := ⟨rfl, rfl⟩
      exact (hunread.trans (sameVnode_allocChildren unread)).trans hsame
    · have hfound := hfinds rfl
      cases hfind : (entries.map diosfsDirectoryEntryToVnode).find? (comparable token) with
      | none =>
        simp only [hfind] at hfound
        exact hfound
      | some child =>
        simp only [hfind] at hfound
        obtain ⟨pos, entry, hres, hentry, rfl⟩ := hfound
        exact ⟨0 + pos, hres, hplaces pos entry hentry⟩

theorem searchDirectory_spec (token : List Char) (hsound : SoundDirectory disk vnode)
    (htype : vnode.vnodeType = .directory) (hnoMount : vnode.mountedVnode = none) :
    if vnode.numChildren ≤ VNODE_MAX_DIRECTORY_ENTRIES then
      ∃ after found, searchDirectory disk vnode token = some (after, found) ∧
        SameVnode vnode after ∧ Finds after.vnodeChildren (firstComparable disk vnode token) found
    else searchDirectory disk vnode token = none := by
  have hentered : entered vnode = vnode := by simp [entered, hnoMount]
  by_cases hread : vnode.isCached = false ∧ vnode.numChildren = 0
  · have hbound : vnode.numChildren ≤ VNODE_MAX_DIRECTORY_ENTRIES := hread.2 ▸ Nat.zero_le _
    obtain ⟨after, found, hlookup, hsame, hfinds⟩ :=
      diosfsLookup_spec token hsound htype hread.1 hread.2
    have hdiosfs : vnode.attributes.vnodeFilesystemId = .diosfs := by
      simp only [SoundDirectory, hread.1, false_eq_true, if_false] at hsound
      exact hsound.1
    rw [if_pos hbound]
    refine ⟨.mk { after.attributes with isCached := true } after.vnodeChildren after.mountedVnode,
      found, ?_, SameVnode.trans hsame ⟨rfl, rfl⟩, ?_⟩
    · simp only [searchDirectory, if_pos hread, hdiosfs, ne_eq, not_true_eq_false, if_false,
        hlookup, bind_eq_bind, bind_some]
    · simp only [firstComparable, visible, hentered, if_pos hread]
      exact hfinds
  · have hvisible : firstComparable disk vnode token =
        (cachedChildren vnode).find? (comparable token) := by
      simp only [firstComparable, visible, hentered, if_neg hread]
      rfl
    have hsearch : searchDirectory disk vnode token =
        (findChild (allocChildren vnode).vnodeChildren token vnode.numChildren 0).bind
          fun found ↦ some (allocChildren vnode, found) := by
      simp only [searchDirectory, if_neg hread, numChildren_allocChildren]
      rfl
    cases hcached : vnode.isCached with
    | false =>
      have hnothing := hsound.cachedChildren_eq_nil hcached
      simp only [SoundDirectory, hcached, false_eq_true, if_false] at hsound
      rw [vnodeChildren_allocChildren hsound.2.2, findChild_replicate, Nat.zero_add] at hsearch
      by_cases hbound : vnode.numChildren ≤ VNODE_MAX_DIRECTORY_ENTRIES
      · rw [if_pos hbound]
        rw [if_pos (.inr hbound)] at hsearch
        exact ⟨_, none, hsearch, sameVnode_allocChildren vnode, by simp [hvisible, hnothing, Finds]⟩
      · rw [if_neg hbound]
        rwa [if_neg (by omega)] at hsearch
    | true =>
      simp only [SoundDirectory, hcached, if_true] at hsound
      obtain ⟨hbound, harray⟩ := hsound
      rw [if_pos hbound]
      by_cases halloc : vnode.attributes.childMemoryAllocated = true
      · have hsame : allocChildren vnode = vnode := by rw [allocChildren, if_pos halloc]
        rw [if_pos halloc] at harray
        obtain ⟨found, hfound, hfinds⟩ := findChild_spec vnode.vnodeChildren token
          vnode.numChildren 0 (by rw [harray, Nat.zero_add]; exact hbound)
        rw [hsame, hfound, bind_some] at hsearch
        refine ⟨vnode, found, hsearch, .refl _, ?_⟩
        rw [hvisible]
        exact hfinds
      · rw [if_neg halloc] at harray
        rw [harray] at hsearch
        refine ⟨_, none, hsearch, sameVnode_allocChildren vnode, ?_⟩
        simp [hvisible, cachedChildren, harray, Finds]

/-- **One component.** `find_vnode_child` finds the first comparable entry, unless more children
are recorded than the array has room for. -/
theorem findVnodeChild_spec (token : List Char) (hsound : SoundTree disk vnode)
    (htype : vnode.vnodeType = .directory) :
    if (entered vnode).numChildren ≤ VNODE_MAX_DIRECTORY_ENTRIES then
      ∃ after found, findVnodeChild disk vnode token = some (after, found) ∧
        SameVnode vnode after ∧
        Finds (entered after).vnodeChildren (firstComparable disk vnode token) found
    else findVnodeChild disk vnode token = none := by
  obtain ⟨-, hinnerType, hinnerMount, hdir⟩ := hsound.entered htype
  have hsearch := searchDirectory_spec token hdir hinnerType hinnerMount
  have hfirst : firstComparable disk (entered vnode) token = firstComparable disk vnode token := by
    have hentered : entered (entered vnode) = entered vnode := by
      conv_lhs => rw [entered, hinnerMount]
      rfl
    simp only [firstComparable, visible, hentered]
  have hdirectoryTest : ¬ vnode.vnodeType ≠ .directory := not_not.mpr htype
  cases hmounted : vnode.mountedVnode with
  | none =>
    have hentered : entered vnode = vnode := by simp [entered, hmounted]
    have hcall : findVnodeChild disk vnode token = searchDirectory disk vnode token := by
      simp only [findVnodeChild, if_neg hdirectoryTest, hmounted]
    rw [hfirst, hentered] at hsearch
    rw [hentered, hcall]
    split
    · rename_i hbound
      rw [if_pos hbound] at hsearch
      obtain ⟨after, found, hres, hsame, hfinds⟩ := hsearch
      have hafter : after.mountedVnode = none := by
        simpa [hmounted] using hsame.mounted
      refine ⟨after, found, hres, hsame, ?_⟩
      rw [entered, hafter]
      exact hfinds
    · rename_i hbound
      rwa [if_neg hbound] at hsearch
  | some mounted =>
    have hentered : entered vnode = mounted := by simp [entered, hmounted]
    have hcall : findVnodeChild disk vnode token =
        (searchDirectory disk mounted token).bind fun result ↦
          some (vnode.setMounted result.1, result.2) := by
      simp only [findVnodeChild, if_neg hdirectoryTest, hmounted]
      rfl
    rw [hfirst, hentered] at hsearch
    rw [hentered, hcall]
    split
    · rename_i hbound
      rw [if_pos hbound] at hsearch
      obtain ⟨after, found, hres, -, hfinds⟩ := hsearch
      rw [hres, bind_some]
      exact ⟨_, found, rfl, ⟨rfl, by rw [hmounted]; rfl⟩, hfinds⟩
    · rename_i hbound
      rw [if_neg hbound] at hsearch
      rw [hsearch]
      rfl

end Component

end DionysOS.Filesystem.Vfs
