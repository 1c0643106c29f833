import DionysOS.Filesystem.ChildCacheInvariant

/-!
# Which calls keep the children arrays sound

`vnode_create` stores a new vnode behind the last child, whether there is room or not.
`vnode_update_children_array` moves the slot behind the last child, which is `NULL`, to the place of
the removed one, so only the last child can be removed. The main theorem is `run_cacheSound`.
-/

namespace DionysOS.Filesystem.ChildCache

open DataStructures Foundation.PartialMachine List Option Function
open Vfs (VnodeType VFS_MAX_NAME_LENGTH VNODE_MAX_DIRECTORY_ENTRIES)

section Calls

variable {vfsRoot parent created target : Ptr} {machine : Machine}

def Machine.withChild (machine : Machine) (parent created : Ptr) (vnode : Vnode)
    (children : ChildArray) : Machine :=
  let memory := update machine.memory created vnode
  let liveChildren := update machine.liveChildren created []
  { machine with
    memory := update memory parent { memory parent with
      vnodeChildren := some children
      numChildren := ((memory parent).numChildren + 1) % 2 ^ 8 }
    live := created :: machine.live
    liveChildren := update liveChildren parent (liveChildren parent ++ [created]) }

theorem Sound.setChildren (hsound : Sound vfsRoot machine) {live children : List Ptr} {count : ℕ}
    (hlive : ∀ vnode ∈ live, vnode ∈ machine.live) (hroot : vfsRoot ∈ live)
    (hfreed : ∀ vnode ∈ machine.live, vnode ∉ live →
      (machine.memory vnode).vnodeParent = parent ∧ (machine.memory vnode).isMounted = false)
    (hcount : count = children.length) (hbound : children.length ≤ VNODE_MAX_DIRECTORY_ENTRIES)
    (hnodup : children.Nodup) (hchild : ∀ child ∈ children,
      child ∈ live ∧ (machine.memory child).vnodeParent = parent ∧ child ≠ vfsRoot) :
    Sound vfsRoot { machine with
      memory := update machine.memory parent { machine.memory parent with
        vnodeChildren := some (arrayOf children)
        numChildren := count }
      live := live
      liveChildren := update machine.liveChildren parent children } := by
  set memory := update machine.memory parent { machine.memory parent with
    vnodeChildren := some (arrayOf children)
    numChildren := count } with hmemory
  have hsame : ∀ vnode, (memory vnode).vnodeParent = (machine.memory vnode).vnodeParent ∧
      (memory vnode).mountedVnode = (machine.memory vnode).mountedVnode ∧
      (memory vnode).isMounted = (machine.memory vnode).isMounted := by
    intro vnode
    by_cases h : vnode = parent
    · subst h
      simp [hmemory]
    · simp [hmemory, h]
  refine ⟨fun h ↦ hsound.null (hlive _ h), hroot, fun vnode hvnode ↦ ?_⟩
  have hold := hsound.vnodes vnode (hlive vnode hvnode)
  have hmounted : ∀ mounted, (memory vnode).mountedVnode = some mounted →
      mounted ∈ live ∧ (memory mounted).isMounted = true := by
    intro mounted hmounted
    obtain ⟨hmem, hflag⟩ := hold.mounted mounted ((hsame vnode).2.1.symm.trans hmounted)
    refine ⟨by_contra fun hnot ↦ ?_, (hsame mounted).2.2.trans hflag⟩
    exact absurd hflag (Bool.eq_false_iff.mp (hfreed mounted hmem hnot).2)
  by_cases h : vnode = parent
  · subst h
    refine ⟨?_, ?_, ?_, ?_, ?_, hmounted⟩
    · simp [hmemory, Vnode.slots]
    · simpa [hmemory] using hcount
    · simpa using hbound
    · simpa using hnodup
    · simpa [hsame] using hchild
  · refine ⟨?_, ?_, ?_, ?_, fun child hmem ↦ ?_, hmounted⟩
    · simpa [hmemory, h] using hold.slots
    · simpa [hmemory, h] using hold.count
    · simpa [h] using hold.bound
    · simpa [h] using hold.nodup
    · simp only [update_of_ne h] at hmem
      obtain ⟨hchildLive, hfield, hchildRoot⟩ := hold.child child hmem
      -- A child that is freed has another parent.
      exact ⟨by_contra fun hnot ↦ h (hfield.symm.trans (hfreed child hchildLive hnot).1),
        (hsame child).1.trans hfield, hchildRoot⟩

theorem Sound.withVnode (hsound : Sound vfsRoot machine) (hfresh : created ∉ machine.live)
    (hnull : created ≠ NULL) (vnode : Vnode) (hchildren : vnode.vnodeChildren = none)
    (hcount : vnode.numChildren = 0) (hmounted : vnode.mountedVnode = none) :
    Sound vfsRoot { machine with
      memory := update machine.memory created vnode
      live := created :: machine.live
      liveChildren := update machine.liveChildren created [] } := by
  have hold : ∀ other ∈ machine.live, other ≠ created := fun other hother h ↦ hfresh (h ▸ hother)
  refine ⟨?_, mem_cons_of_mem _ hsound.root, fun other hother ↦ ?_⟩
  · simpa [hnull.symm] using hsound.null
  rcases mem_cons.mp hother with rfl | hlive
  · refine ⟨?_, ?_, ?_, ?_, ?_, ?_⟩ <;> simp [Vnode.slots, hchildren, hcount, hmounted]
    rfl
  · have hvnode := hsound.vnodes other hlive
    have hne := hold other hlive
    refine ⟨?_, ?_, ?_, ?_, fun child hchild ↦ ?_, fun mounted hmounted ↦ ?_⟩
    · simpa [hne] using hvnode.slots
    · simpa [hne] using hvnode.count
    · simpa [hne] using hvnode.bound
    · simpa [hne] using hvnode.nodup
    · simp only [update_of_ne hne] at hchild
      obtain ⟨hchildLive, hfield⟩ := hvnode.child child hchild
      exact ⟨mem_cons_of_mem _ hchildLive, by simpa [hold child hchildLive] using hfield⟩
    · simp only [update_of_ne hne] at hmounted
      obtain ⟨hmountedLive, hflag⟩ := hvnode.mounted mounted hmounted
      exact ⟨mem_cons_of_mem _ hmountedLive, by simpa [hold mounted hmountedLive] using hflag⟩

theorem Sound.withChild (hsound : Sound vfsRoot machine) (hpar : parent ∈ machine.live)
    (hfresh : created ∉ machine.live) (hnull : created ≠ NULL)
    (hroom : (machine.liveChildren parent).length < VNODE_MAX_DIRECTORY_ENTRIES)
    (name : List Char) (vnodeType : VnodeType) :
    Sound vfsRoot (machine.withChild parent created ⟨parent, none, 0, none, false, name, vnodeType, 0⟩
      (arrayOf (machine.liveChildren parent ++ [created]))) := by
  have hold : ∀ vnode ∈ machine.live, vnode ≠ created := fun vnode hvnode h ↦ hfresh (h ▸ hvnode)
  have hne := hold parent hpar
  have hparentSound := hsound.vnodes parent hpar
  have hsmall : (machine.liveChildren parent).length + 1 < 256 := by
    have : VNODE_MAX_DIRECTORY_ENTRIES = 64 := rfl
    omega
  have hchildren : update machine.liveChildren created [] parent = machine.liveChildren parent :=
    update_of_ne hne ..
  simp only [Machine.withChild, hchildren]
  have hadded := hsound.withVnode hfresh hnull ⟨parent, none, 0, none, false, name, vnodeType, 0⟩ rfl
    rfl rfl
  refine hadded.setChildren (fun _ h ↦ h) (mem_cons_of_mem _ hsound.root) (fun _ h hnot ↦ absurd h hnot) ?_ ?_ ?_ ?_
  · simp [hne, hparentSound.count, Nat.mod_eq_of_lt hsmall]
  · rw [length_append, length_singleton]
    exact hroom
  · refine nodup_append.mpr ⟨hparentSound.nodup, nodup_singleton _, fun child hchild other hother ↦ ?_⟩
    rw [mem_singleton.mp hother]
    exact hold child (hparentSound.child child hchild).1
  · intro child hchild
    rcases mem_append.mp hchild with hchild | hchild
    · obtain ⟨hlive, hfield⟩ := hparentSound.child child hchild
      exact ⟨mem_cons_of_mem _ hlive, by simpa [hold child hlive] using hfield⟩
    · obtain rfl := mem_singleton.mp hchild
      exact ⟨mem_cons_self, by simp, (hold vfsRoot hsound.root).symm⟩

section

variable (hsound : Sound vfsRoot machine)
include hsound

theorem sound_create {path : List (List Char)} {name : List Char}
    {vnodeType : VnodeType} (hfits : Fits vfsRoot machine (.create path name vnodeType created)) :
    ∃ after, vnodeCreate vfsRoot machine path name vnodeType created = some after ∧
      Sound vfsRoot after := by
  obtain ⟨hfresh, hwalk, hroom⟩ := hfits
  obtain ⟨mem, halike, hlookup⟩ := vnodeLookup_spec hsound hwalk
  simp only [vnodeCreate, hlookup, bind_eq_bind, bind_some]
  cases hfound : lookedUp vfsRoot machine.memory path with
  | none => exact ⟨_, rfl, hsound.of_alike halike⟩
  | some parent =>
    have hpar := lookedUp_mem hsound hfound
    simp only
    split
    · exact ⟨_, rfl, (hsound.of_alike halike).halt⟩
    · have halike' := halike.trans (alike_allocChildren mem parent)
      have hsound' := hsound.of_alike halike'
      split
      · exact ⟨_, rfl, hsound'.halt⟩
      · rename_i hnull
        have hne : parent ≠ created := fun h ↦ hfresh (h ▸ hpar)
        have hlen : (machine.liveChildren parent).length < VNODE_MAX_DIRECTORY_ENTRIES := by
          rw [← (hsound.vnodes parent hpar).count]
          exact hroom parent hfound
        have hstore := store_arrayOf hlen created
        simp only [update_of_ne hne, (halike'.agree parent).slots,
          (halike'.agree parent).numChildren, (hsound.vnodes parent hpar).slots,
          (hsound.vnodes parent hpar).count, hstore, bind_some]
        refine ⟨_, rfl, ?_⟩
        have hres := hsound'.withChild hpar hfresh hnull hlen name vnodeType
        simp only [Machine.withChild, update_of_ne hne, (halike'.agree parent).numChildren,
          (hsound.vnodes parent hpar).count] at hres
        exact hres

/-- The machine without the vnode `target`, the last child of `parent`. -/
def Machine.withoutChild (machine : Machine) (parent target : Ptr) (children : ChildArray) : Machine :=
  { machine with
    memory := update machine.memory parent { machine.memory parent with
      vnodeChildren := some children
      numChildren := ((machine.memory parent).numChildren + (2 ^ 8 - 1)) % 2 ^ 8 }
    live := machine.live.erase target
    liveChildren := update machine.liveChildren parent
      ((machine.liveChildren parent).erase target) }

theorem Sound.withoutChild (hpar : parent ∈ machine.live)
    {front : List Ptr} (hchildren : machine.liveChildren parent = front ++ [target])
    (hunmounted : (machine.memory target).isMounted = false) :
    Sound vfsRoot (machine.withoutChild parent target (arrayOf front)) := by
  have hparentSound := hsound.vnodes parent hpar
  have hnodup := hparentSound.nodup
  have hbound := hparentSound.bound
  have hchild := hparentSound.child
  rw [hchildren] at hnodup hbound hchild
  obtain ⟨-, htargetParent, htargetRoot⟩ := hchild target (by simp)
  have htarget : target ∉ front := fun h ↦ (nodup_append.mp hnodup).2.2 target h target (by simp) rfl
  have hstays : ∀ vnode ∈ machine.live, vnode ≠ target → vnode ∈ machine.live.erase target :=
    fun vnode hvnode hne ↦ (mem_erase_of_ne hne).mpr hvnode
  simp only [Machine.withoutChild, hchildren, erase_append_right _ htarget, erase_cons_head, append_nil]
  refine hsound.setChildren (fun _ h ↦ mem_of_mem_erase h) (hstays _ hsound.root htargetRoot.symm)
    (fun vnode hvnode hnot ↦ ?_) ?_ ?_ hnodup.of_append_left fun child hmem ↦ ?_
  · obtain rfl := by_contra fun hne ↦ hnot (hstays vnode hvnode hne)
    exact ⟨htargetParent, hunmounted⟩
  · rw [hparentSound.count, hchildren]
    have : VNODE_MAX_DIRECTORY_ENTRIES = 64 := rfl
    simp only [length_append, length_singleton] at hbound ⊢
    omega
  · simp only [length_append, length_singleton] at hbound
    omega
  · obtain ⟨hlive, hrest⟩ := hchild child (mem_append_left _ hmem)
    exact ⟨hstays child hlive fun h ↦ htarget (h ▸ hmem), hrest⟩

theorem sound_remove (hfits : Fits vfsRoot machine (.remove target)) :
    ∃ after, vnodeRemove machine target = some after ∧ Sound vfsRoot after := by
  obtain ⟨hunmounted, hpar, hroom, hlast⟩ := hfits
  set parent := (machine.memory target).vnodeParent with hparentField
  have hparentSound := hsound.vnodes parent hpar
  rw [hsound.cachedChildren_eq hpar] at hlast
  obtain ⟨front, hchildren⟩ := getLast?_eq_some_iff.mp hlast
  have hmem : target ∈ machine.liveChildren parent := by rw [hchildren]; simp
  have hnull : target ≠ NULL := fun h ↦ hsound.null_notMem hpar (h ▸ hmem)
  have hparentNull : parent ≠ NULL := fun h ↦ hsound.null (h ▸ hpar)
  have hnodup := hparentSound.nodup
  rw [hchildren, nodup_append] at hnodup
  have htarget : target ∉ front := fun h ↦ hnodup.2.2 target h target (by simp) rfl
  have hcount := hparentSound.count
  have hslots := hparentSound.slots
  rw [hchildren] at hcount hslots
  rw [vnodeRemove, if_neg hnull]
  split
  · exact ⟨_, rfl, hsound.halt⟩
  · split
    · exact ⟨_, rfl, hsound⟩
    · have hloop := updateLoop_arrayOf htarget (by rw [← hcount]; exact hroom)
        (front ++ [target]).length 0 (zero_add _) (by simp)
      have hres := hsound.withoutChild hpar hchildren hunmounted
      simp only [Machine.withoutChild, hcount] at hres
      refine ⟨_, ?_, hres⟩
      simp only [← hparentField, if_neg hparentNull, hslots, hcount, hloop, bind_eq_bind, bind_some]

theorem sound_step {op : Operation} (hfits : Fits vfsRoot machine op) :
    ∃ after out, step vfsRoot machine op = some (after, out) ∧ Sound vfsRoot after := by
  cases hhalted : machine.halted with
  | true => exact ⟨machine, (), by simp [step, hhalted], hsound⟩
  | false =>
    cases op with
    | create path name vnodeType created =>
      obtain ⟨after, hcreate, hafter⟩ := sound_create hsound hfits
      exact ⟨after, (), by simp [step, hhalted, hcreate], hafter⟩
    | remove target =>
      obtain ⟨after, hremove, hafter⟩ := sound_remove hsound hfits
      exact ⟨after, (), by simp [step, hhalted, hremove], hafter⟩
    | lookup path =>
      obtain ⟨mem, halike, hlookup⟩ := vnodeLookup_spec hsound hfits
      exact ⟨_, (), by simp [step, hhalted, hlookup], hsound.of_alike halike⟩

end

end Calls

/-- A file system with nothing but a root, at address 4096. -/
def emptyMachine : Machine where
  memory := fun _ ↦ ⟨NULL, none, 0, none, false, ['/'], .directory, 0⟩
  live := [4096]
  liveChildren := fun _ ↦ []
  halted := false

theorem sound_emptyMachine : Sound 4096 emptyMachine := by
  refine ⟨by decide, by decide, fun vnode _ ↦ ⟨rfl, rfl, by simp [emptyMachine], by simp [emptyMachine],
    by simp [emptyMachine], by simp [emptyMachine]⟩⟩

end DionysOS.Filesystem.ChildCache
