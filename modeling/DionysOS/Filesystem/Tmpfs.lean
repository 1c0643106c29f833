import DionysOS.Foundation.Overlay
import DionysOS.Foundation.PartialMachine
import Mathlib.Data.List.GetD

/-!
# The contents of a tmpfs file

`tmpfs_write` and `tmpfs_read` of `tmpfs.c` on one regular file. The file's pages are kept in two
levels: a list of entries, each with an array of 1024 page pointers. Both functions index that array
with `page / PAGES_PER_TMPFS_ENTRY`, which is zero for the first four megabytes, so there is one page
for all of them; and the size does not count the last byte of a page. Files that end before that
byte are what the code gets right: `run_overlay`.

`none` is a panic, a null page or an access outside the array.
-/

namespace DionysOS.Filesystem.Tmpfs

open Foundation Overlay PartialMachine List Function Option

def PAGE_SIZE : ℕ := 4096
def PAGES_PER_TMPFS_ENTRY : ℕ := 1024

abbrev Page := ℕ → UInt8

/-- `struct tmpfs_page_list_entry`; a page pointer that is `NULL` is `none`. -/
structure PageListEntry where
  pageList : ℕ → Option Page
  numberOfPages : ℕ

/-- The fields of `struct tmpfs_node` that belong to a regular file. -/
structure TmpfsNode where
  tmpfsNodeSize : ℕ
  pageList : List PageListEntry

/-- What `kmalloc` leaves in a new page and in a new entry's `number_of_pages`. -/
structure Leftover where
  page : Page
  numberOfPages : ℕ

/-- A new regular file, as `conjure_new_tmpfs_node` makes it. -/
def TmpfsNode.new : TmpfsNode := ⟨0, []⟩

/-- `tmpfs_find_page_list_entry`: the node, and the number of the entry. -/
def tmpfsFindPageListEntry (leftover : Leftover) (node : TmpfsNode) (number : ℕ) : TmpfsNode × ℕ :=
  if number < node.pageList.length then (node, number)
  else
    let pageList := update (fun _ ↦ none) 0 (some leftover.page)
    let entry : PageListEntry := ⟨pageList, leftover.numberOfPages + 1⟩
    ({ node with pageList := node.pageList ++ [entry] }, node.pageList.length)

/-- `entry->page_list[index]`. -/
def dataPage (entry : PageListEntry) (index : ℕ) : Option Page :=
  if index < PAGES_PER_TMPFS_ENTRY then entry.pageList index else none

/-- `data_page[offset] = byte` in the page that entry number `target` has at `index`. -/
def storeByte (node : TmpfsNode) (target index offset : ℕ) (byte : UInt8) : Option TmpfsNode := do
  let entry ← node.pageList[target]?
  let page ← dataPage entry index
  let pageList := update entry.pageList index (some (update page offset byte))
  some { node with pageList := node.pageList.set target { entry with pageList := pageList } }

/-- `target->number_of_pages++`. -/
def countPage (node : TmpfsNode) (target : ℕ) : TmpfsNode :=
  { node with pageList := node.pageList.modify target fun entry ↦
      { entry with numberOfPages := entry.numberOfPages + 1 } }

/-- The loop of `tmpfs_write`. -/
def writeLoop (leftover : Leftover) :
    List UInt8 → ℕ → ℕ → ℕ → TmpfsNode → Option TmpfsNode
  | [], _, _, _, node => some node
  | byte :: buffer, page, offset, target, node =>
      if byte = 0 then none
      else do
        let node ← storeByte node target (page / PAGES_PER_TMPFS_ENTRY) offset byte
        let offset := if offset + 1 = PAGE_SIZE then 0 else offset + 1
        let newSize := page * PAGE_SIZE + offset > node.tmpfsNodeSize
        let node := if newSize then { node with tmpfsNodeSize := page * PAGE_SIZE + offset } else node
        if offset = 0 then
          let node := if newSize then countPage node target else node
          let page := page + 1
          let (node, target) :=
            if page / PAGES_PER_TMPFS_ENTRY = 0 then
              tmpfsFindPageListEntry leftover node (page / PAGES_PER_TMPFS_ENTRY)
            else (node, target)
          writeLoop leftover buffer page offset target node
        else writeLoop leftover buffer page offset target node

/-- `tmpfs_write` of a buffer: the node, and the number of bytes written. -/
def tmpfsWrite (leftover : Leftover) (node : TmpfsNode) (offset : ℕ) (buffer : List UInt8) :
    Option (TmpfsNode × ℕ) := do
  let page := if offset > PAGE_SIZE then offset / PAGE_SIZE else 0
  let (node, target) := tmpfsFindPageListEntry leftover node (page / PAGES_PER_TMPFS_ENTRY)
  let node ← writeLoop leftover buffer page (offset % PAGE_SIZE) target node
  some (node, buffer.length)

/-- The loop of `tmpfs_read`. -/
def readLoop (leftover : Leftover) :
    ℕ → ℕ → ℕ → ℕ → TmpfsNode → Option (TmpfsNode × List UInt8)
  | 0, _, _, _, node => some (node, [])
  | bytes + 1, page, offset, target, node => do
      let entry ← node.pageList[target]?
      let data ← dataPage entry (page / PAGES_PER_TMPFS_ENTRY)
      let byte := data offset
      let offset := if offset + 1 = PAGE_SIZE then 0 else offset + 1
      if offset = 0 then do
        let page := page + 1
        let (node, target) :=
          if page / PAGES_PER_TMPFS_ENTRY = 1 then
            tmpfsFindPageListEntry leftover node (page / PAGES_PER_TMPFS_ENTRY)
          else (node, target)
        let (node, buffer) ← readLoop leftover bytes page offset target node
        some (node, byte :: buffer)
      else do
        let (node, buffer) ← readLoop leftover bytes page offset target node
        some (node, byte :: buffer)

/-- `tmpfs_read`: the node, the buffer, and the number of bytes read. -/
def tmpfsRead (leftover : Leftover) (node : TmpfsNode) (offset bytes : ℕ) :
    Option (TmpfsNode × List UInt8 × ℕ) := do
  let page := if offset > PAGE_SIZE then offset / PAGE_SIZE else 0
  let (node, target) := tmpfsFindPageListEntry leftover node (page / PAGES_PER_TMPFS_ENTRY)
  let (node, buffer) ← readLoop leftover bytes page (offset % PAGE_SIZE) target node
  some (node, buffer, bytes)

structure Write where
  offset : ℕ
  buffer : List UInt8
  leftover : Leftover

def step (node : TmpfsNode) (write : Write) : Option (TmpfsNode × ℕ) :=
  tmpfsWrite write.leftover node write.offset write.buffer

/-- The condition on a call: it starts in the file and has no zero bytes, and it ends before the last
byte of the first page. -/
structure Fits (node : TmpfsNode) (write : Write) : Prop where
  start : write.offset ≤ node.tmpfsNodeSize
  nonzero : 0 ∉ write.buffer
  short : write.buffer = [] ∨ write.offset + write.buffer.length < PAGE_SIZE

instance (node : TmpfsNode) (write : Write) : Decidable (Fits node write) :=
  decidable_of_iff (write.offset ≤ node.tmpfsNodeSize ∧ 0 ∉ write.buffer ∧
      (write.buffer = [] ∨ write.offset + write.buffer.length < PAGE_SIZE))
    ⟨fun h ↦ ⟨h.1, h.2.1, h.2.2⟩, fun h ↦ ⟨h.start, h.nonzero, h.short⟩⟩

def overlayStep (file : List UInt8 × ℕ) (write : Write) : (List UInt8 × ℕ) × ℕ :=
  ((overlay file.1 write.offset write.buffer,
    max file.2 (write.offset + write.buffer.length)), write.buffer.length)

def contentsOf (writes : List Write) : List UInt8 :=
  writes.foldl (fun contents write ↦ overlay contents write.offset write.buffer) []

def sizeOf (writes : List Write) : ℕ :=
  writes.foldl (fun size write ↦ max size (write.offset + write.buffer.length)) 0

theorem runPure_overlayStep : ∀ (writes : List Write) (file : List UInt8 × ℕ),
    (runPure overlayStep file writes).1 =
      (writes.foldl (fun contents write ↦ overlay contents write.offset write.buffer) file.1,
        writes.foldl (fun size write ↦ max size (write.offset + write.buffer.length)) file.2)
  | [], _ => rfl
  | write :: writes, file => runPure_overlayStep writes (overlayStep file write).1

def PageHolds (node : TmpfsNode) (contents : List UInt8) : Prop :=
  ∃ entry rest page, node.pageList = entry :: rest ∧ entry.pageList 0 = some page ∧
    ∀ position byte, contents[position]? = some byte → page position = byte

/-- The node is a file with these contents, on one page. -/
structure Represents (node : TmpfsNode) (contents : List UInt8) : Prop where
  size : node.tmpfsNodeSize = contents.length
  short : contents.length < PAGE_SIZE
  page : node.pageList = [] ∧ contents = [] ∨ PageHolds node contents

section Calls

variable {leftover : Leftover} {node : TmpfsNode} {contents : List UInt8} {offset off : ℕ}

theorem represents_new : Represents TmpfsNode.new [] := ⟨rfl, by decide, .inl ⟨rfl, rfl⟩⟩

theorem findFirst_spec (hnode : Represents node contents) (leftover : Leftover) :
    ∃ after, tmpfsFindPageListEntry leftover node 0 = (after, 0) ∧ Represents after contents ∧
      PageHolds after contents := by
  rcases hnode.page with ⟨hpages, rfl⟩ | hholds
  · refine ⟨_, by rw [tmpfsFindPageListEntry, hpages]; rfl, ?_, ?_⟩
    · exact ⟨hnode.size, hnode.short, .inr ⟨_, [], leftover.page, rfl, by simp, by simp⟩⟩
    · exact ⟨_, [], leftover.page, rfl, by simp, by simp⟩
  · obtain ⟨entry, rest, page, hpages, -⟩ := id hholds
    exact ⟨node, by rw [tmpfsFindPageListEntry, hpages, if_pos (by simp)], hnode, hholds⟩

theorem writeLoop_cons (hnode : Represents node contents) (hholds : PageHolds node contents)
    (hstart : off ≤ contents.length) (hshort : off + 1 < PAGE_SIZE) {byte : UInt8}
    (hbyte : byte ≠ 0) (buf : List UInt8) :
    ∃ after, writeLoop leftover (byte :: buf) 0 off 0 node =
        writeLoop leftover buf 0 (off + 1) 0 after ∧
      Represents after (overlay contents off [byte]) ∧
      PageHolds after (overlay contents off [byte]) := by
  obtain ⟨entry, rest, page, hpages, hpage, hbytes⟩ := hholds
  let stored : PageListEntry := { entry with
    pageList := update entry.pageList 0 (some (update page off byte)) }
  have hstore : storeByte node 0 0 off byte = some { node with pageList := stored :: rest } := by
    simp [storeByte, hpages, dataPage, hpage, PAGES_PER_TMPFS_ENTRY, stored]
  have hlen := length_overlay hstart [byte]
  have hsize : (if off + 1 > node.tmpfsNodeSize then off + 1 else node.tmpfsNodeSize) =
      (overlay contents off [byte]).length := by
    rw [hlen, hnode.size, length_singleton]
    split <;> omega
  have hpage' : PageHolds ⟨(overlay contents off [byte]).length, stored :: rest⟩
      (overlay contents off [byte]) := by
    refine ⟨stored, rest, update page off byte, rfl, by simp [stored], ?_⟩
    intro pos value hvalue
    rw [getElem?_overlay hstart] at hvalue
    by_cases hpos : pos = off
    · subst hpos
      simpa using hvalue
    · rw [if_neg (by simp only [length_singleton]; omega)] at hvalue
      rw [update_of_ne hpos]
      exact hbytes pos value hvalue
  refine ⟨⟨(overlay contents off [byte]).length, stored :: rest⟩, ?_, ⟨rfl, ?_, .inr hpage'⟩, hpage'⟩
  · have hin : ¬ off + 1 = PAGE_SIZE := by omega
    have hnotZero : ¬ off + 1 = 0 := Nat.succ_ne_zero off
    rw [writeLoop, if_neg hbyte]
    simp only [Nat.zero_div, hstore, bind_eq_bind, bind_some, if_neg hin,
      zero_mul, zero_add, if_neg hnotZero]
    congr 1
    rw [← hsize]
    split <;> rfl
  · rw [hlen, length_singleton]
    exact Nat.max_lt.mpr ⟨hnode.short, hshort⟩

theorem writeLoop_spec : ∀ (buf : List UInt8) {node : TmpfsNode} {contents : List UInt8}
    {off : ℕ}, Represents node contents → PageHolds node contents → off ≤ contents.length →
      (buf = [] ∨ off + buf.length < PAGE_SIZE) → 0 ∉ buf →
      ∃ after, writeLoop leftover buf 0 off 0 node = some after ∧
        Represents after (overlay contents off buf)
  | [], node, contents, off, hnode, _, _, _, _ => ⟨node, rfl, by rwa [overlay_nil]⟩
  | byte :: buf, node, contents, off, hnode, hholds, hstart, hshort, hnonzero => by
      rw [mem_cons, not_or] at hnonzero
      have hend : off + (buf.length + 1) < PAGE_SIZE := by simpa using hshort
      obtain ⟨next, hround, hnext, hnextHolds⟩ := @writeLoop_cons leftover node contents off hnode
        hholds hstart (by omega) byte (Ne.symm hnonzero.1) buf
      obtain ⟨after, hloop, hafter⟩ := writeLoop_spec buf hnext hnextHolds
        (show off + 1 ≤ (overlay contents off [byte]).length by
          rw [length_overlay hstart, length_singleton]
          exact le_max_right ..)
        (.inr (by omega)) hnonzero.2
      exact ⟨after, hround.trans hloop, by rwa [overlay_cons hstart]⟩

theorem tmpfsWrite_spec (hnode : Represents node contents) {write : Write}
    (hfits : Fits node write) :
    ∃ after, step node write = some (after, write.buffer.length) ∧
      Represents after (overlay contents write.offset write.buffer) := by
  have hstart : write.offset ≤ contents.length := hnode.size ▸ hfits.start
  have hfirst : ¬ write.offset > PAGE_SIZE := by
    have := hnode.short
    omega
  have hmod : write.offset % PAGE_SIZE = write.offset :=
    Nat.mod_eq_of_lt (lt_of_le_of_lt hstart hnode.short)
  obtain ⟨found, hfind, hfound, hholds⟩ := findFirst_spec hnode write.leftover
  obtain ⟨after, hloop, hafter⟩ := @writeLoop_spec write.leftover write.buffer found contents
    write.offset hfound hholds hstart hfits.short hfits.nonzero
  refine ⟨after, ?_, hafter⟩
  simp only [step, tmpfsWrite, if_neg hfirst, hmod, Nat.zero_div, hfind, hloop, bind_eq_bind,
    bind_some]

theorem readLoop_spec (hholds : PageHolds node contents) (hshort : contents.length < PAGE_SIZE) :
    ∀ (bytes off : ℕ), off + bytes ≤ contents.length →
      readLoop leftover bytes 0 off 0 node = some (node, (contents.drop off).take bytes)
  | 0, off, _ => by simp [readLoop]
  | bytes + 1, off, hend => by
      have hrest := readLoop_spec hholds hshort bytes (off + 1) (by omega)
      obtain ⟨entry, rest, page, hpages, hpage, hbytes⟩ := hholds
      have hlt : off < contents.length := by omega
      have hin : ¬ off + 1 = PAGE_SIZE := by omega
      have hnotZero : ¬ off + 1 = 0 := Nat.succ_ne_zero off
      have hbyte := hbytes off contents[off] (getElem?_eq_getElem hlt)
      have hdata : dataPage entry 0 = some page := by
        simp [dataPage, hpage, PAGES_PER_TMPFS_ENTRY]
      have hentry : node.pageList[0]? = some entry := by simp [hpages]
      rw [readLoop, hentry]
      simp only [Nat.zero_div, hdata, bind_eq_bind, bind_some, if_neg hin,
        if_neg hnotZero, hrest, hbyte]
      rw [drop_eq_getElem_cons hlt, take_succ_cons]

theorem tmpfsRead_spec (hnode : Represents node contents) (leftover : Leftover) {bytes : ℕ}
    (hend : offset + bytes ≤ contents.length) :
    ∃ after, tmpfsRead leftover node offset bytes =
      some (after, (contents.drop offset).take bytes, bytes) := by
  have hshort := hnode.short
  have hfirst : ¬ offset > PAGE_SIZE := by omega
  have hmod : offset % PAGE_SIZE = offset := Nat.mod_eq_of_lt (by omega)
  obtain ⟨found, hfind, -, hholds⟩ := findFirst_spec hnode leftover
  have hloop := @readLoop_spec leftover found contents hholds hshort bytes offset hend
  refine ⟨found, ?_⟩
  simp only [tmpfsRead, if_neg hfirst, hmod, Nat.zero_div, hfind, hloop, bind_eq_bind, bind_some]

theorem tmpfsWrite_last (hnode : Represents node contents) (hlen : contents.length + 1 = PAGE_SIZE)
    {byte : UInt8} (hbyte : byte ≠ 0) (leftover : Leftover) :
    ∃ after, step node ⟨contents.length, [byte], leftover⟩ = some (after, 1) ∧
      after.tmpfsNodeSize = contents.length := by
  have hshort := hnode.short
  have hfirst : ¬ contents.length > PAGE_SIZE := by omega
  have hmod : contents.length % PAGE_SIZE = contents.length := Nat.mod_eq_of_lt hshort
  obtain ⟨found, hfind, hfound, entry, rest, page, hpages, hpage, -⟩ :=
    findFirst_spec hnode leftover
  let stored : PageListEntry := { entry with
    pageList := update entry.pageList 0 (some (update page contents.length byte)) }
  have hstore : storeByte found 0 0 contents.length byte =
      some { found with pageList := stored :: rest } := by
    simp [storeByte, hpages, dataPage, hpage, PAGES_PER_TMPFS_ENTRY, stored]
  have hsecond : (0 + 1) / PAGES_PER_TMPFS_ENTRY = 0 := by decide
  refine ⟨{ found with pageList := stored :: rest }, ?_, hfound.size⟩
  simp only [step, tmpfsWrite, if_neg hfirst, hmod, Nat.zero_div, hfind, bind_eq_bind,
    bind_some, writeLoop, if_neg hbyte, hstore, hlen, if_true, zero_mul, add_zero,
    gt_iff_lt, Nat.not_lt_zero, if_false, hsecond]
  rfl

end Calls

/-- **A tmpfs file is a byte array**, as long as it ends before the last byte of its first page. -/
theorem run_overlay {writes : List Write} (hfits : Guarded step Fits TmpfsNode.new writes) :
    ∃ final outs, run step TmpfsNode.new writes = some (final, outs) ∧
      final.tmpfsNodeSize = sizeOf writes ∧
      ∀ leftover offset bytes, offset + bytes ≤ final.tmpfsNodeSize →
        ∃ after, tmpfsRead leftover final offset bytes =
          some (after, ((contentsOf writes).drop offset).take bytes, bytes) := by
  have hstep : ∀ (node : TmpfsNode) (file : List UInt8 × ℕ) (write : Write),
      Represents node file.1 ∧ file.2 = file.1.length → Fits node write →
      ∃ next, step node write = some (next, (overlayStep file write).2) ∧
        Represents next (overlayStep file write).1.1 ∧
        (overlayStep file write).1.2 = (overlayStep file write).1.1.length := by
    rintro node file write ⟨hnode, hsize⟩ hfits
    obtain ⟨after, hcall, hafter⟩ := tmpfsWrite_spec hnode hfits
    refine ⟨after, hcall, hafter, ?_⟩
    simp only [overlayStep]
    rw [length_overlay (hnode.size ▸ hfits.start), hsize]
  obtain ⟨final, hrun, hfinal, hsize⟩ := run_simulates hstep writes
    (show Represents TmpfsNode.new ([], 0).1 ∧ ([], 0).2 = ([], 0).1.length from
      ⟨represents_new, rfl⟩) hfits
  rw [runPure_overlayStep] at hfinal hsize
  refine ⟨final, _, hrun, hfinal.size.trans hsize.symm, fun leftover offset bytes hend ↦ ?_⟩
  exact tmpfsRead_spec hfinal leftover (hfinal.size ▸ hend)

def zeroLeftover : Leftover := ⟨fun _ ↦ 0, 0⟩

/-- Three bytes, of which the last is written again together with one more. -/
def twoWrites : List Write := [⟨0, [1, 2, 3], zeroLeftover⟩, ⟨2, [4, 5], zeroLeftover⟩]

theorem run_overlay_twoWrites : ∃ final outs,
    run step TmpfsNode.new twoWrites = some (final, outs) ∧ final.tmpfsNodeSize = 4 ∧
      ∃ after, tmpfsRead zeroLeftover final 1 3 = some (after, [2, 4, 5], 3) := by
  obtain ⟨final, outs, hrun, hsize, hread⟩ := @run_overlay twoWrites (by decide +kernel)
  refine ⟨final, outs, hrun, hsize, ?_⟩
  have hend : 1 + 3 ≤ final.tmpfsNodeSize := by rw [hsize]; decide
  exact hread zeroLeftover 1 3 hend

def almostPage : List UInt8 := List.replicate (PAGE_SIZE - 1) 1

theorem length_almostPage : almostPage.length = 4095 := length_replicate

/-- A file of one page: all bytes but the last, and then the last. -/
def pageWrites : List Write := [⟨0, almostPage, zeroLeftover⟩, ⟨4095, [1], zeroLeftover⟩]

/-- The size of a file of one page is one too small. -/
theorem run_not_overlay : ∃ final outs, run step TmpfsNode.new pageWrites = some (final, outs) ∧
    final.tmpfsNodeSize = 4095 ∧ sizeOf pageWrites = 4096 := by
  have hnonzero : 0 ∉ almostPage := fun h ↦ absurd (eq_of_mem_replicate h) (by decide)
  have hfits : Fits TmpfsNode.new ⟨0, almostPage, zeroLeftover⟩ := by
    refine ⟨le_refl 0, hnonzero, .inr ?_⟩
    simp only [length_almostPage]
    decide
  obtain ⟨first, hfirst, hholds⟩ := tmpfsWrite_spec represents_new hfits
  have hcontents : (overlay [] 0 almostPage).length = 4095 := by
    rw [length_overlay (le_refl 0), length_almostPage]
    rfl
  obtain ⟨second, hsecond, hsize⟩ := @tmpfsWrite_last first _ hholds (by
    rw [hcontents]
    rfl) 1 (by decide) zeroLeftover
  rw [hcontents] at hsecond hsize
  refine ⟨second, _, run_cons_of_step hfirst (run_cons_of_step hsecond rfl), hsize, ?_⟩
  simp only [sizeOf, pageWrites, foldl_cons, foldl_nil, length_almostPage, length_singleton]
  rfl

end DionysOS.Filesystem.Tmpfs
