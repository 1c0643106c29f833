import DionysOS.Filesystem.DiosfsEntryFree

/-!
# Removal of a file's entry from a diosfs directory

`diosfs_directory_entry_free` fills the gap with the entry after the last one, which is no entry of
the directory, and compares the wrong number with a multiple of seven when it looks for an empty
block. The theorem at the end says for which directories and entries the removal is right
nevertheless, whatever the memory holds that the code reads without having written it.
-/

namespace DionysOS.Filesystem.Diosfs

open Foundation.ByteRecords List Function Option
open Vfs (VnodeType DIOSFS_BLOCKSIZE NUM_BLOCKS_DIRECT)

variable {k block index idx : ℕ} {parent : Inode} {after : Context} {buf : Bytes}

/-- A list without its last element and with another one in place of the element at `k` is a
permutation of the list without that element exactly if the other one is the last. -/
theorem set_dropLast_perm_eraseIdx_iff {α : Type*} {init : List α} {last moved : α}
    (hk : k < init.length) :
    (init.set k moved).Perm ((init ++ [last]).eraseIdx k) ↔ moved = last := by
  have hset := set_perm_cons_eraseIdx hk moved
  have hlast : (init.eraseIdx k ++ [last]).Perm ([last] ++ init.eraseIdx k) := perm_append_comm
  rw [eraseIdx_append_of_lt_length hk]
  constructor
  · intro hperm
    have hcons : ([moved] ++ init.eraseIdx k).Perm ([last] ++ init.eraseIdx k) :=
      hset.symm.trans (hperm.trans hlast)
    simpa using (perm_append_right_iff _).mp hcons
  · rintro rfl
    exact hset.trans hlast.symm

/-- The entry was taken out: the directory lists the others in some order, and it has lost a block
exactly if that holds no entry any more. -/
structure TakenOut (fs : Context) (number : ℕ) (entries : List Dirent) (k : ℕ) (after : Context) :
    Prop where
  size : (after.inodes number).size = entries.length - 1
  listing : ∃ listed, listed.Perm (entries.eraseIdx k) ∧
    ∀ childrenSize, NUM_BLOCKS_DIRECT * DIOSFS_BLOCKSIZE ≤ childrenSize →
      getDirectoryEntries after number childrenSize = some (.ok listed)
  blockCount : (after.inodes number).blockCount = (entries.length - 1 + 6) / 7
  freed : ∀ index block, (directBlocks (fs.inodes number))[index]? = some block →
    (after.blockBitmap block = false ↔ entries.length - 1 ≤ 7 * index)

/-- When the removal does what it should. The directory keeps all its blocks, and needs them. The
entry was the last one, or the slot after the last one holds a copy of that. Where the file's inode
goes, it goes without a fault, and the stray block is none of the directory's, except for the block
of the entry itself, which is written back from memory. -/
def RemovalMeets (fs : Context) (number : ℕ) (entries : List Dirent) (k : ℕ) (entry : Dirent) :
    Prop :=
  let directory := fs.inodes number
  let file := fs.inodes entry.inodeNumber.toNat
  2 ≤ entries.length % 7 ∧
  (k + 1 = entries.length ∨
    entryAt fs.blocks directory entries.length = entries[entries.length - 1]?) ∧
  (file.refcount ≤ 1 → Survives fs file ∧
    ∀ index, (directBlocks directory)[index]? = some (strayBlock fs file.inodeNumber) →
      index = k / 7 ∧ (k + 1 = entries.length ∨ entries.length / 7 ≠ k / 7))

variable {garbage : Garbage} {fs next : Context} {number k fuel : ℕ} {entries : List Dirent}
  {entry : Dirent} {target : Option ℕ}

theorem dropBlock_eq_some {dropped : Inode} {last : ℕ} {changed : Context}
    (hdrop : dropBlock fs parent last = some (changed, dropped)) :
    dropped.inodeNumber = parent.inodeNumber ∧ dropped.blockCount =
      if parent.size % 7 = 0 then (parent.blockCount + (2 ^ 32 - 1)) % 2 ^ 32
      else parent.blockCount := by
  rw [dropBlock, maxFilesInDirentBlock_eq] at hdrop
  by_cases hfull : parent.size % 7 = 0
  · rw [if_pos hfull] at hdrop ⊢
    obtain ⟨freed, -, hdrop⟩ := bind_eq_some_iff.mp hdrop
    cases hdrop
    exact ⟨rfl, rfl⟩
  · rw [if_neg hfull] at hdrop ⊢
    cases hdrop
    exact ⟨rfl, rfl⟩

theorem takeOut_blockCount {i : ℕ} (htake : takeOut fs parent buf i = some after) :
    (after.inodes parent.inodeNumber).blockCount =
      if 1 < parent.size ∧ parent.size % 7 = 0 then (parent.blockCount + (2 ^ 32 - 1)) % 2 ^ 32
      else parent.blockCount := by
  obtain ⟨number, -, htake⟩ := bind_eq_some_iff.mp htake
  by_cases hmany : 1 < parent.size
  · rw [if_pos hmany] at htake
    obtain ⟨last, -, htake⟩ := bind_eq_some_iff.mp htake
    obtain ⟨shiftBuffer, -, htake⟩ := bind_eq_some_iff.mp htake
    obtain ⟨⟨changed, dropped⟩, hdropped, htake⟩ := bind_eq_some_iff.mp htake
    obtain ⟨once, -, htake⟩ := bind_eq_some_iff.mp htake
    obtain ⟨twice, -, htake⟩ := bind_eq_some_iff.mp htake
    cases htake
    obtain ⟨hnum, hcount⟩ := dropBlock_eq_some hdropped
    rw [writeInode_inodes, ← hnum, update_self]
    simp [hmany, hcount]
  · rw [if_neg hmany] at htake
    obtain ⟨once, -, htake⟩ := bind_eq_some_iff.mp htake
    cases htake
    simp [hmany]

/-- Where the directory keeps its blocks, the entry after the last one is put in place of the entry,
and the block of that is written back. -/
theorem takeOut_eq {parent : Inode} {buf : Bytes} {i number last : ℕ}
    (hsize : 2 ≤ parent.size % 7) (hnum : parent.blocks[i / 7]? = some number)
    (hlast : parent.blocks[parent.size / 7]? = some last) (hnumberDevice : number < fs.numBlocks)
    (hlastDevice : last < fs.numBlocks) :
    takeOut fs parent buf i = some (writeInode
      (fs.setBlock number (setEntry buf (i % 7) (entryOf (fs.blocks last) (parent.size % 7))))
      { parent with size := parent.size - 1 }) := by
  have hmany : 1 < parent.size := by
    omega
  have hkeep : dropBlock fs parent last = some (fs, parent) := by
    rw [dropBlock, maxFilesInDirentBlock_eq, if_neg (by omega)]
  simp only [takeOut, maxFilesInDirentBlock_eq, hnum, hlast, hkeep, hmany, if_true,
    bind_eq_bind, bind_some, readBlockByNumber, writeBlockByNumber, hnumberDevice,
    hlastDevice, Context.setBlock_numBlocks]
  refine congrArg (fun disk ↦ some (writeInode disk _)) ?_
  ext1 <;> try rfl
  exact update_idem ..

theorem Dropped.entryAt_eq (hdropped : Dropped garbage fs next number target)
    (hblock : (fs.inodes number).blocks[index / 7]? = some block)
    (hmem : block ∈ directBlocks (fs.inodes number)) (htarget : target ≠ some block) :
    entryAt next.blocks (fs.inodes number) index = entryAt fs.blocks (fs.inodes number) index := by
  rw [entryAt, entryAt, hblock, map_some, map_some, hdropped.blocks block hmem, if_neg htarget]

theorem Dropped.entryAt_target (hdropped : Dropped garbage fs next number target)
    (hblock : (fs.inodes number).blocks[idx / 7]? = some block)
    (hmem : block ∈ directBlocks (fs.inodes number)) (htarget : target = some block) :
    entryAt next.blocks (fs.inodes number) idx = some (entryOf garbage.page (idx % 7)) := by
  rw [entryAt, hblock, map_some, hdropped.blocks block hmem, if_pos htarget]

def repeated (entry : Dirent) : Bytes := fun position ↦
  entry.toBytes (position % DIRECTORY_ENTRY_SIZE)

@[simp]
theorem entryOf_repeated (entry : Dirent) (idx : ℕ) : entryOf (repeated entry) idx = entry := by
  rw [entryOf, ← Dirent.ofBytes_toBytes entry]
  refine Dirent.ofBytes_congr fun pos hpos ↦ ?_
  rw [Dirent.ofBytes_toBytes, slot, repeated, Nat.mul_add_mod, Nat.mod_eq_of_lt hpos]

section

variable {named : Option Dirent} {inode : Inode}

section

variable (hsit : Situation fs number entries k entry)
include hsit

theorem Situation.takenOut_iff
    (hsize : 2 ≤ entries.length % 7) (hdropped : Dropped garbage fs next number target)
    (hinode : after.inodes number = { fs.inodes number with size := entries.length - 1 })
    (hbitmap : after.blockBitmap = next.blockBitmap) (hdev : after.numBlocks = fs.numBlocks) :
    TakenOut fs number entries k after ↔
      (listing after.blocks (after.inodes number)).Perm (entries.eraseIdx k) := by
  have hstores := hsit.holds.stores
  have hcount := hsit.blockCount
  have hle := hstores.blockCount_le
  have hlisting : ∀ childrenSize, NUM_BLOCKS_DIRECT * DIOSFS_BLOCKSIZE ≤ childrenSize →
      getDirectoryEntries after number childrenSize =
        some (.ok (listing after.blocks (after.inodes number))) := by
    intro childrenSize hchildren
    have hbytes : NUM_BLOCKS_DIRECT * DIOSFS_BLOCKSIZE = 10240 := rfl
    refine getDirectoryEntries_eq ?_ ?_ ?_ ?_ ?_
    · rw [hinode]
      exact hsit.holds.type
    · rw [hinode]
      change entries.length - 1 < 70
      omega
    · rw [hinode, hdev]
      exact hstores.onDevice
    · rw [hinode, show DIOSFS_BLOCKSIZE = 1024 from rfl]
      change (fs.inodes number).blockCount * 1024 ≤ childrenSize
      omega
    · rw [hinode, show DIRECTORY_ENTRY_SIZE = 144 from rfl]
      change (entries.length - 1) * 144 ≤ childrenSize
      omega
  constructor
  · rintro ⟨-, ⟨listed, hperm, hlisted⟩, -, -⟩
    have hsame := (hlisted _ le_rfl).symm.trans (hlisting _ le_rfl)
    rwa [Except.ok.inj (some.inj hsame)] at hperm
  · intro hperm
    refine ⟨by rw [hinode], ⟨_, hperm, hlisting⟩, ?_, fun idx block hblock ↦ ?_⟩
    · rw [hinode]
      change (fs.inodes number).blockCount = _
      omega
    · obtain ⟨hidx, -⟩ := List.getElem?_eq_some_iff.mp hblock
      have hmem := mem_of_getElem? hblock
      have hlen : (directBlocks (fs.inodes number)).length ≤ (fs.inodes number).blockCount := by
        rw [directBlocks, length_take]
        exact min_le_left ..
      rw [hbitmap, hdropped.marked block hmem, hstores.marked block hmem]
      simp only [Bool.true_eq_false, false_iff, not_le]
      omega

/-- The slots of the directory when the entry was taken out. The gap holds what was in the slot after
the last entry, the other slots of that block come from memory, and the rest is on the disk. -/
theorem Situation.takeOut_spec
    (hsize : 2 ≤ entries.length % 7) (hdropped : Dropped garbage fs next number target)
    (hblock : (fs.inodes number).blocks[k / 7]? = some block) :
    ∃ after moved, takeOut next (fs.inodes number) (fs.blocks block) k = some after ∧
      after.inodes number = { fs.inodes number with size := entries.length - 1 } ∧
      (TakenOut fs number entries k after ↔
        (listing after.blocks (after.inodes number)).Perm (entries.eraseIdx k)) ∧
      entryAt next.blocks (fs.inodes number) entries.length = some moved ∧
      ∀ index < entries.length - 1, entryAt after.blocks (fs.inodes number) index =
        if index = k then some moved
        else if index / 7 = k / 7 then entries[index]?
        else entryAt next.blocks (fs.inodes number) index := by
  have hstores := hsit.holds.stores
  have hcount := hsit.blockCount
  have hk := hsit.lt
  have hlastIndex : entries.length / 7 < (fs.inodes number).blockCount := by omega
  obtain ⟨last, hlast, -, hlastDevice⟩ := hstores.exists_block hlastIndex
  have hblockDevice : block < fs.numBlocks := by
    obtain ⟨other, hother, -, hdev⟩ :=
      hstores.exists_block (show k / 7 < (fs.inodes number).blockCount by omega)
    rwa [some.inj (hblock.symm.trans hother)]
  let moved := entryOf (next.blocks last) (entries.length % 7)
  let shifted : Inode := { fs.inodes number with size := entries.length - 1 }
  let after := writeInode (next.setBlock block (setEntry (fs.blocks block) (k % 7) moved)) shifted
  have htake : takeOut next (fs.inodes number) (fs.blocks block) k = some after := by
    have heq := @takeOut_eq next (fs.inodes number) (fs.blocks block) k block last
      (by rwa [hstores.size]) hblock (by rwa [hstores.size])
      (by rwa [hdropped.numBlocks]) (by rwa [hdropped.numBlocks])
    rwa [hstores.size] at heq
  have hinode : after.inodes number = shifted := by
    change update next.inodes (fs.inodes number).inodeNumber shifted number = shifted
    rw [hsit.holds.inodeNumber, update_self]
  refine ⟨after, moved, htake, hinode, hsit.takenOut_iff hsize hdropped hinode rfl hdropped.numBlocks,
    by rw [entryAt, hlast, map_some], fun index hidx ↦ ?_⟩
  obtain ⟨other, hother, -⟩ :=
    hstores.exists_block (show index / 7 < (fs.inodes number).blockCount by omega)
  have hstored := hstores.stored index (by omega)
  rw [entryAt, hother, map_some] at hstored
  rw [entryAt, entryAt, hother, map_some, map_some]
  change some (entryOf (update next.blocks block _ other) _) = _
  by_cases hsame : index / 7 = k / 7
  · rw [hsame, hblock] at hother
    cases hother
    rw [update_self, if_pos hsame]
    by_cases hgap : index = k
    · rw [if_pos hgap, hgap, entryOf_setEntry_self]
    · rw [if_neg hgap, entryOf_setEntry_of_ne (by omega), hstored]
  · have hne : other ≠ block := by
      rintro rfl
      exact hsame (hstores.index_unique (by omega) (by omega) hother hblock)
    rw [update_of_ne hne, if_neg fun hgap ↦ hsame (by rw [hgap]), if_neg hsame]

/-- Where the blocks other than that of the entry are as before, the listing is the old one without
its last entry and with the gap filled. -/
theorem Situation.listing_perm_iff {moved : Dirent}
    (hinode : after.inodes number = { fs.inodes number with size := entries.length - 1 })
    (hslots : ∀ idx < entries.length - 1, entryAt after.blocks (fs.inodes number) idx =
      if idx = k then some moved else entries[idx]?) :
    (listing after.blocks (after.inodes number)).Perm (entries.eraseIdx k) ↔
      k + 1 = entries.length ∨ entries[entries.length - 1]? = some moved := by
  have hcount := hsit.blockCount
  have hle := hsit.holds.stores.blockCount_le
  have hk := hsit.lt
  rcases eq_nil_or_concat entries with rfl | ⟨init, last, rfl⟩
  · simp at hk
  simp only [concat_eq_append, length_append, length_singleton,
    Nat.add_sub_cancel] at hk hcount hinode hslots ⊢
  have hlisting : listing after.blocks (after.inodes number) = init.set k moved := by
    rw [hinode]
    refine ext_getElem? fun idx ↦ ?_
    by_cases hidx : idx < init.length
    · rw [getElem?_listing (show init.length < 70 by omega) hidx]
      refine (hslots idx hidx).trans ?_
      rw [getElem?_set, getElem?_append_left hidx]
      by_cases hgap : idx = k
      · subst hgap
        simp [hidx]
      · rw [if_neg hgap, if_neg (Ne.symm hgap)]
    · rw [getElem?_eq_none (by rw [length_listing]; exact not_lt.mp hidx),
        getElem?_eq_none (by rw [length_set]; omega)]
  rw [hlisting]
  rcases Nat.lt_or_eq_of_le (Nat.le_of_lt_succ hk) with hlt | rfl
  · rw [set_dropLast_perm_eraseIdx_iff hlt, getElem?_concat_length, some.injEq, eq_comm]
    exact ⟨.inr, fun hor ↦ hor.resolve_left (by omega)⟩
  · rw [set_eq_of_length_le le_rfl, eraseIdx_append_of_length_le le_rfl]
    simp

theorem Situation.notMem_eraseIdx :
    entry ∉ entries.eraseIdx k := by
  intro hmem
  obtain ⟨other, hother, hentry⟩ := List.mem_eraseIdx_iff_getElem?.mp hmem
  obtain ⟨hlt, -⟩ := List.getElem?_eq_some_iff.mp hentry
  refine hother ((List.getElem?_inj (by simpa using hlt) hsit.distinct).mp ?_)
  rw [getElem?_map, getElem?_map, hentry, hsit.getElem]

theorem Situation.of_returns
    (hpar : named.elim inode.parentInodeNumber (·.parentInodeNumber.toNat) = number)
    (hnamed : named.elim inode.inodeNumber (·.inodeNumber.toNat) = entry.inodeNumber.toNat)
    (hblock : (fs.inodes number).blocks[k / 7]? = some block)
    (hbuf : entryOf (fs.blocks block) (k % 7) = entry)
    (hret : directoryEntryFree garbage fuel fs named inode = some (some after)) :
    (Removes garbage fs k entry → Survives fs (fs.inodes entry.inodeNumber.toNat)) ∧
      ∃ next, Dropped garbage fs next number (strayTarget garbage fs k entry) ∧
        takeOut next (fs.inodes number) (fs.blocks block) k = some after := by
  rw [hsit.directoryEntryFree_eq hpar hnamed hblock] at hret
  obtain ⟨next, hfree, htake⟩ := bind_eq_some_iff.mp hret
  obtain ⟨taken, htake, htaken⟩ := map_eq_some_iff.mp htake
  have hspec := @Situation.freeTarget_spec garbage fs number k fuel entries entry hsit _ hbuf
  rw [hfree] at hspec
  split at hspec
  · rename_i hsurvives
    obtain ⟨same, hsame, hdropped⟩ := hspec
    cases hsame
    exact ⟨hsurvives, next, hdropped, by rw [htake, some.inj htaken]⟩
  · cases hspec

theorem Situation.two_le_mod_of_takenOut
    (htake : takeOut next (fs.inodes number) buf k = some after)
    (htaken : TakenOut fs number entries k after) : 2 ≤ entries.length % 7 := by
  have hcount := hsit.blockCount
  have hk := hsit.lt
  have hafter := takeOut_blockCount htake
  rw [hsit.holds.inodeNumber, htaken.blockCount, hsit.holds.stores.size, hcount] at hafter
  split at hafter <;> omega

theorem Situation.takenOut_of_meets
    (hpar : named.elim inode.parentInodeNumber (·.parentInodeNumber.toNat) = number)
    (hnamed : named.elim inode.inodeNumber (·.inodeNumber.toNat) = entry.inodeNumber.toNat)
    (hmeets : RemovalMeets fs number entries k entry) (garbage : Garbage) :
    ∃ after, directoryEntryFree garbage fuel fs named inode = some (some after) ∧
      TakenOut fs number entries k after := by
  obtain ⟨hsize, hgap, hfile⟩ := hmeets
  obtain ⟨block, hblock, -, -, hbuf⟩ := hsit.exists_block
  have hstores := hsit.holds.stores
  have hcount := hsit.blockCount
  have hspec := @Situation.freeTarget_spec garbage fs number k fuel entries entry hsit _ hbuf
  rw [if_pos fun hremoves ↦ (hfile hremoves.2).1] at hspec
  obtain ⟨next, hfree, hdropped⟩ := hspec
  -- the stray block is no other block of the directory than that of the entry
  have hstray : ∀ index other, index / 7 < (fs.inodes number).blockCount →
      (fs.inodes number).blocks[index / 7]? = some other →
      strayTarget garbage fs k entry = some other →
      index / 7 = k / 7 ∧ (k + 1 = entries.length ∨ entries.length / 7 ≠ k / 7) := by
    intro index other hidx hother htarget
    rw [strayTarget] at htarget
    split at htarget
    · rename_i hremoves
      refine (hfile hremoves.2).2 (index / 7) ?_
      rw [directBlocks_getElem? hidx, hother, htarget]
    · cases htarget
  obtain ⟨after, moved, htake, hinode, htaken, hmoved, hslots⟩ :=
    hsit.takeOut_spec hsize hdropped hblock
  have hkept : ∀ index < entries.length - 1, entryAt after.blocks (fs.inodes number) index =
      if index = k then some moved else entries[index]? := by
    intro index hidx
    rw [hslots index hidx]
    split
    · rfl
    · split
      · rfl
      · rename_i hother
        obtain ⟨other, hblock, hmem, -⟩ :=
          hstores.exists_block (show index / 7 < (fs.inodes number).blockCount by omega)
        rw [hdropped.entryAt_eq hblock hmem fun htarget ↦
          hother (hstray index other (by omega) hblock htarget).1]
        exact hstores.stored index (by omega)
  refine ⟨after, ?_, htaken.mpr ((hsit.listing_perm_iff hinode hkept).mpr
    (or_iff_not_imp_left.mpr fun hinner ↦ ?_))⟩
  · rw [hsit.directoryEntryFree_eq hpar hnamed hblock, hfree, bind_some, htake, map_some]
  · obtain ⟨last, hlast, hmem, -⟩ := hstores.exists_block
      (show entries.length / 7 < (fs.inodes number).blockCount by omega)
    rw [← hgap.resolve_left hinner, ← hmoved]
    refine (hdropped.entryAt_eq hlast hmem fun htarget ↦ ?_).symm
    obtain ⟨hsame, hor⟩ := hstray entries.length last (by omega) hlast htarget
    exact hor.resolve_left hinner hsame

/-- The gap is filled rightly only where the entry was the last one, or the slot after the last one
holds a copy of that: the page of garbage may be what is on the disk already. -/
theorem Situation.gap_of_takenOut (hsize : 2 ≤ entries.length % 7)
    (hblock : (fs.inodes number).blocks[k / 7]? = some block)
    (hpage : garbage.page = fs.blocks (strayBlock fs (fs.inodes entry.inodeNumber.toNat).inodeNumber))
    (hdropped : Dropped garbage fs next number (strayTarget garbage fs k entry))
    (htake : takeOut next (fs.inodes number) (fs.blocks block) k = some after)
    (htaken : TakenOut fs number entries k after) :
    k + 1 = entries.length ∨
      entryAt fs.blocks (fs.inodes number) entries.length = entries[entries.length - 1]? := by
  have hstores := hsit.holds.stores
  have hcount := hsit.blockCount
  have hdisk : ∀ index, index / 7 < (fs.inodes number).blockCount →
      entryAt next.blocks (fs.inodes number) index =
        entryAt fs.blocks (fs.inodes number) index := by
    intro index hidx
    obtain ⟨other, hother, hmem, -⟩ := hstores.exists_block hidx
    have hsame : next.blocks other = fs.blocks other := by
      rw [hdropped.blocks other hmem, hpage, strayTarget]
      split
      · split
        · rename_i htarget
          rw [some.inj htarget]
        · rfl
      · rw [if_neg (by simp)]
    rw [entryAt, entryAt, hother, map_some, map_some, hsame]
  obtain ⟨same, moved, hsame, hinode, hiff, hmoved, hslots⟩ :=
    hsit.takeOut_spec hsize hdropped hblock
  obtain rfl := some.inj (htake.symm.trans hsame)
  have hperm := hiff.mp htaken
  rw [hdisk _ (by omega)] at hmoved
  have hkept : ∀ index < entries.length - 1, entryAt after.blocks (fs.inodes number) index =
      if index = k then some moved else entries[index]? := by
    intro index hidx
    rw [hslots index hidx, hdisk index (by omega), hstores.stored index (by omega), ite_self]
  rw [hmoved, @eq_comm _ (some moved)]
  exact (hsit.listing_perm_iff hinode hkept).mp hperm

/-- The stray block is none that the listing reads from the disk: the page of garbage may be full of
copies of the entry. -/
theorem Situation.stray_of_takenOut (hsize : 2 ≤ entries.length % 7) {stray : ℕ}
    (hblock : (fs.inodes number).blocks[k / 7]? = some block)
    (hpage : garbage.page = repeated entry) (hdropped : Dropped garbage fs next number (some stray))
    (htake : takeOut next (fs.inodes number) (fs.blocks block) k = some after)
    (htaken : TakenOut fs number entries k after)
    (hidx : (directBlocks (fs.inodes number))[idx]? = some stray) :
    idx = k / 7 ∧ (k + 1 = entries.length ∨ entries.length / 7 ≠ k / 7) := by
  have hcount := hsit.blockCount
  have hmem := mem_of_getElem? hidx
  have hlt : idx < (fs.inodes number).blockCount := by
    obtain ⟨hlen, -⟩ := List.getElem?_eq_some_iff.mp hidx
    rw [directBlocks, length_take] at hlen
    omega
  rw [directBlocks_getElem? hlt] at hidx
  have hk := hsit.lt
  obtain ⟨same, moved, hsame, hinode, hiff, hmoved, hslots⟩ :=
    hsit.takeOut_spec hsize hdropped hblock
  obtain rfl := some.inj (htake.symm.trans hsame)
  have hperm := hiff.mp htaken
  -- the entry must not be in the listing again
  have hgone : ∀ pos < entries.length - 1,
      entryAt after.blocks (fs.inodes number) pos ≠ some entry := by
    intro pos hpos hfound
    have hle := hsit.holds.stores.blockCount_le
    have hlisted : (listing after.blocks (after.inodes number))[pos]? = some entry := by
      rw [hinode]
      exact (getElem?_listing (show entries.length - 1 < 70 by omega) hpos).trans hfound
    exact hsit.notMem_eraseIdx (hperm.subset (mem_of_getElem? hlisted))
  by_cases hsame : idx = k / 7
  · refine ⟨hsame, or_iff_not_imp_left.mpr fun hinner hlast ↦ hgone k (by omega) ?_⟩
    rw [hslots k (by omega), if_pos rfl, ← hmoved,
      hdropped.entryAt_target (by rw [hlast, ← hsame]; exact hidx) hmem rfl, hpage,
      entryOf_repeated]
  · refine absurd ?_ (hgone (7 * idx) (by omega))
    rw [hslots _ (by omega), if_neg (by omega), if_neg (by omega),
      hdropped.entryAt_target (by rw [Nat.mul_div_cancel_left _ (by omega)]; exact hidx) hmem rfl,
      hpage, entryOf_repeated]

end

/-- **Removal of an entry.** For a directory that stores `entries` and an entry of it that names a
file, `diosfs_directory_entry_free` leaves a directory with the other entries, and frees a block
exactly if that is empty then, whatever is in the memory that it reads without having written it,
exactly under the condition above. -/
theorem directoryEntryFree_takenOut_iff (hsituation : Situation fs number entries k entry)
    (hparent : named.elim inode.parentInodeNumber (·.parentInodeNumber.toNat) = number)
    (hnamed : named.elim inode.inodeNumber (·.inodeNumber.toNat) = entry.inodeNumber.toNat) :
    (∀ garbage, ∃ after, directoryEntryFree garbage fuel fs named inode = some (some after) ∧
      TakenOut fs number entries k after) ↔ RemovalMeets fs number entries k entry := by
  refine ⟨fun htaken ↦ ?_, fun hmeets garbage ↦ hsituation.takenOut_of_meets hparent hnamed hmeets
    garbage⟩
  obtain ⟨block, hblock, -, -, hbuf⟩ := hsituation.exists_block
  have hsize : 2 ≤ entries.length % 7 := by
    obtain ⟨after, hret, hafter⟩ := htaken ⟨fun _ ↦ entry, repeated entry⟩
    obtain ⟨-, next, -, htake⟩ := hsituation.of_returns hparent hnamed hblock hbuf hret
    exact hsituation.two_le_mod_of_takenOut htake hafter
  refine ⟨hsize, ?_, fun hlast ↦ ?_⟩
  · obtain ⟨after, hret, hafter⟩ := htaken ⟨fun _ ↦ entry,
      fs.blocks (strayBlock fs (fs.inodes entry.inodeNumber.toNat).inodeNumber)⟩
    obtain ⟨-, next, hdropped, htake⟩ :=
      hsituation.of_returns hparent hnamed hblock hbuf hret
    exact hsituation.gap_of_takenOut hsize hblock rfl hdropped htake hafter
  · have hremoves : Removes ⟨fun _ ↦ entry, repeated entry⟩ fs k entry :=
      ⟨.inr hsituation.type, hlast⟩
    obtain ⟨after, hret, hafter⟩ := htaken ⟨fun _ ↦ entry, repeated entry⟩
    obtain ⟨hsurvives, next, hdropped, htake⟩ :=
      hsituation.of_returns hparent hnamed hblock hbuf hret
    rw [strayTarget, if_pos hremoves] at hdropped
    exact ⟨hsurvives hremoves, fun index hidx ↦
      hsituation.stray_of_takenOut hsize hblock rfl hdropped htake hafter hidx⟩

end

def fileEntry (number : BitVec 32) : Dirent := ⟨fun _ ↦ 0, number, 0, typeCode .file, 0, 0⟩

/-- A disk whose root holds the files with the inodes 1 and 2 in block 0. -/
def twoFiles : Context where
  superblock := ⟨16, 128, 17, 145⟩
  deviceMinor := 0
  numBlocks := 1048576
  inodeBitmap := fun number ↦ number < 3
  blockBitmap := fun number ↦ number == 0
  inodes := fun number ↦
    if number = 0 then { Inode.zero with size := 2, blockCount := 1 }
    else { Inode.zero with inodeNumber := number, type := typeCode .file }
  blocks := fun _ ↦ setEntry (setEntry (fun _ ↦ 0) 0 (fileEntry 1)) 1 (fileEntry 2)

theorem holds_twoFiles : Holds twoFiles 0 [fileEntry 1, fileEntry 2] := by
  refine ⟨rfl, rfl, rfl, by decide, by decide, ?_, by decide, by decide, fun idx hidx ↦ ?_⟩
  · intro block hblock
    have hzero : NUM_BLOCKS_DIRECT ≠ 0 ∧ block = 0 := by
      simpa [twoFiles, Inode.zero] using hblock
    rw [hzero.2]
    decide
  · have hfirst : entryAt twoFiles.blocks (twoFiles.inodes 0) 0 = some (fileEntry 1) :=
      congrArg some ((entryOf_setEntry_of_ne (by decide) _ _).trans (entryOf_setEntry_self _ _ _))
    have hsecond : entryAt twoFiles.blocks (twoFiles.inodes 0) 1 = some (fileEntry 2) :=
      congrArg some (entryOf_setEntry_self _ _ _)
    obtain rfl | rfl : idx = 0 ∨ idx = 1 := by
      simp only [length_cons, length_nil] at hidx
      omega
    · exact hfirst
    · exact hsecond

theorem situation_twoFiles {number : BitVec 32}
    (hentry : [fileEntry 1, fileEntry 2][k]? = some (fileEntry number))
    (hnum : number.toNat ≠ 0) :
    Situation twoFiles 0 [fileEntry 1, fileEntry 2] k (fileEntry number) := by
  have hinode : twoFiles.inodes number.toNat =
      { Inode.zero with inodeNumber := number.toNat, type := typeCode .file } := if_neg hnum
  have hnone : blocksOf twoFiles.blocks (twoFiles.inodes number.toNat) = [] := by
    rw [hinode, blocksOf]
    exact spread_zero _ _
  refine ⟨holds_twoFiles, rfl, by decide, hentry, rfl, ?_, hnum, ⟨?_, ?_⟩, ?_⟩
  · exact congrArg Inode.inodeNumber hinode
  · change (blocksOf twoFiles.blocks (twoFiles.inodes number.toNat)).Nodup
    rw [hnone]
    exact nodup_nil
  · change ∀ block ∈ blocksOf twoFiles.blocks (twoFiles.inodes number.toNat), _
    rw [hnone]
    exact nofun
  · change ∀ block ∈ _, block ∉ blocksOf twoFiles.blocks (twoFiles.inodes number.toNat)
    rw [hnone]
    exact fun _ _ ↦ not_mem_nil

/-- The last of two files is removed rightly. -/
theorem directoryEntryFree_twoFiles :
    Situation twoFiles 0 [fileEntry 1, fileEntry 2] 1 (fileEntry 2) ∧
    ∀ garbage, ∃ after,
      directoryEntryFree garbage 0 twoFiles (some (fileEntry 2)) Inode.zero = some (some after) ∧
      TakenOut twoFiles 0 [fileEntry 1, fileEntry 2] 1 after := by
  have hsituation : Situation twoFiles 0 [fileEntry 1, fileEntry 2] 1 (fileEntry 2) :=
    situation_twoFiles rfl (by decide)
  refine ⟨hsituation, (directoryEntryFree_takenOut_iff hsituation rfl rfl).mpr
    ⟨by decide, .inl rfl, fun _ ↦ ⟨⟨?_, by decide, by decide⟩, ?_⟩⟩⟩
  · have hnone : dataBlocks twoFiles.blocks (twoFiles.inodes 2) = [] := spread_zero _ _
    exact nofun
  · intro index hidx
    exact absurd (mem_of_getElem? hidx) (by decide)

/-- When the first of two files is removed, the second one is lost: the gap is filled with the empty
slot after it. -/
theorem directoryEntryFree_not_takenOut :
    Situation twoFiles 0 [fileEntry 1, fileEntry 2] 0 (fileEntry 1) ∧
    ∃ after, directoryEntryFree ⟨fun _ ↦ fileEntry 1, fun _ ↦ 0⟩ 0 twoFiles (some (fileEntry 1))
        Inode.zero = some (some after) ∧
      (∃ listed, getDirectoryEntries after 0 10240 = some (.ok listed) ∧
        listed.map (fun entry ↦ entry.inodeNumber.toNat) = [0]) ∧
      ¬TakenOut twoFiles 0 [fileEntry 1, fileEntry 2] 0 after := by
  have hret : (directoryEntryFree ⟨fun _ ↦ fileEntry 1, fun _ ↦ 0⟩ 0 twoFiles
      (some (fileEntry 1)) Inode.zero).map (fun result ↦ result.map fun after ↦
        listedNumbers after 0 10240) = some (some (some [0])) := by
    decide +kernel
  obtain ⟨result, hres, hlisting⟩ := map_eq_some_iff.mp hret
  obtain ⟨after, rfl, hlisted⟩ := map_eq_some_iff.mp hlisting
  obtain ⟨listed, hlisted, hnumbers⟩ := listedNumbers_eq_some hlisted
  refine ⟨situation_twoFiles rfl (by decide), after, hres, ⟨listed, hlisted, hnumbers⟩, ?_⟩
  rintro ⟨-, ⟨shown, hperm, hshown⟩, -, -⟩
  have hsame : shown = listed :=
    Except.ok.inj (some.inj ((hshown 10240 (by decide)).symm.trans hlisted))
  have hmap := hperm.map fun entry ↦ entry.inodeNumber.toNat
  rw [hsame, hnumbers] at hmap
  exact absurd hmap (by decide)

end DionysOS.Filesystem.Diosfs
