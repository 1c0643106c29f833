import DionysOS.Filesystem.HandleTable

/-!
# Closing a handle

The loop of `vnode_close` goes through the list of handles but stays at the head, so that it finds the
handle only there, and does not end otherwise.
-/

namespace DionysOS.Filesystem.HandleTable

open DataStructures List

/-- The calls of the file system's `close` in the loop of `vnode_close`: the vnode and the handle. -/
def closeCalls (state : State) (handle : ℕ) : ℕ → List (Ptr × ℕ)
  | 0 => []
  | fuel + 1 =>
      match state.list.handleList with
      | [] => []
      | virtualHandle :: _ =>
          if virtualHandle.handleId = handle then [(virtualHandle.vnode, handle)]
          else closeCalls state handle fuel

structure Closes (state : State) (virtualHandle : VirtualHandle) (next : State)
    (calls : List (Ptr × ℕ)) : Prop where
  calls : calls = [(virtualHandle.vnode, virtualHandle.handleId)]
  handleList : next.list.handleList =
    state.list.handleList.filter (·.handleId ≠ virtualHandle.handleId)
  vnodeRefcount : next.vnodeRefcount =
    adjust state.vnodeRefcount virtualHandle.vnode 16 (2 ^ 16 - 1)

/-- Two handles on two vnodes; the one with the identifier 1 was opened last. -/
def twoHandles : State :=
  ⟨⟨[⟨1, 8192, 0⟩, ⟨0, 4096, 0⟩], 2, 3#64⟩, fun _ ↦ 1, fun _ ↦ 0⟩

end DionysOS.Filesystem.HandleTable
