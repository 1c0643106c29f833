import DionysOS.Filesystem.DiosfsRemoval

/-!
# What freeing the blocks of an inode does

`freed fs leaves` is the disk with these blocks zeroed and their bits cleared as far as
`diosfs_clear_bitmap` clears them. The loops of `free_blocks_from_inode` follow the trees of pointer
blocks while they free the leaves. Where no block is used twice, none of the pointer blocks is
zeroed before it is read, and the loops come to `freed` of the data blocks. They do so unless one of
the blocks is so far on the disk that clearing its bit leaves the buffer.
-/

namespace DionysOS.Filesystem.Diosfs

open Foundation.ByteRecords List Option

def freed (fs : Context) (leaves : List ℕ) : Context :=
  { fs with
    blocks := fun block ↦ if block ∈ leaves then fun _ ↦ 0 else fs.blocks block
    blockBitmap := fun block ↦
      if block ∈ leaves ∧ block < BITS_PER_BLOCK then false else fs.blockBitmap block }

/-- The bits of these blocks lie in the buffer of `diosfs_clear_bitmap`. -/
def Clearable (leaves : List ℕ) : Prop := ∀ block ∈ leaves, block / 8 < PAGE_SIZE

instance : DecidablePred Clearable := fun _ ↦ decidableBAll _ _

@[simp]
theorem freed_nil (fs : Context) : freed fs [] = fs := by
  simp [freed]

theorem freed_append (fs : Context) (first second : List ℕ) :
    freed (freed fs first) second = freed fs (first ++ second) := by
  ext1 <;> try rfl
  all_goals
    funext block
    simp only [freed, mem_append]
    by_cases hfirst : block ∈ first <;> by_cases hsecond : block ∈ second <;> simp [hfirst, hsecond]

variable {block : ℕ} {fs : Context}

theorem freed_blocks_of_notMem {leaves : List ℕ}
    (hblock : block ∉ leaves) : (freed fs leaves).blocks block = fs.blocks block :=
  if_neg hblock

theorem freed_blockBitmap_of_notMem {leaves : List ℕ}
    (hblock : block ∉ leaves) : (freed fs leaves).blockBitmap block = fs.blockBitmap block :=
  if_neg fun hboth ↦ hblock hboth.1

theorem clearable_append {first second : List ℕ} :
    Clearable (first ++ second) ↔ Clearable first ∧ Clearable second := by
  simp only [Clearable, mem_append, or_imp, forall_and]

/-- A bitmap after `diosfs_clear_bitmap`, which clears bits of the first block only. -/
def cleared (bitmap : ℕ → Bool) (number : ℕ) : ℕ → Bool := fun bit ↦
  if bit = number ∧ bit < BITS_PER_BLOCK then false else bitmap bit

theorem clearBit_eq (bitmap : ℕ → Bool) (num : ℕ) :
    clearBit bitmap num = if num / 8 < PAGE_SIZE then some (cleared bitmap num) else none := by
  have hsmall : BITS_PER_BLOCK ≤ 8 * PAGE_SIZE := by decide
  have hcleared : ∀ bit, cleared bitmap num bit =
      if num < BITS_PER_BLOCK then Function.update bitmap num false bit else bitmap bit := by
    intro bit
    by_cases hbit : bit = num <;> by_cases hfirst : num < BITS_PER_BLOCK <;>
      simp [cleared, hbit, hfirst]
  rw [clearBit]
  by_cases hfirst : num < BITS_PER_BLOCK
  · rw [if_pos hfirst, if_pos (by omega), funext hcleared]
    simp [hfirst]
  · rw [if_neg hfirst, funext hcleared]
    simp [hfirst]

theorem freeBlockAndMarkBitmap_eq (hdev : block < fs.numBlocks) :
    freeBlockAndMarkBitmap fs block =
      if Clearable [block] then some (freed fs [block]) else none := by
  have hclearable : Clearable [block] ↔ block / 8 < PAGE_SIZE := by simp [Clearable]
  have hfreed : { fs.setBlock block fun _ ↦ 0 with blockBitmap := cleared fs.blockBitmap block } =
      freed fs [block] := by
    ext1 <;> try rfl
    · funext other
      simp [freed, cleared]
    · funext other
      by_cases hother : other = block <;> simp [freed, hother]
  simp only [freeBlockAndMarkBitmap, writeBlockByNumber, if_pos hdev, bind_eq_bind,
    bind_some, Context.setBlock_blockBitmap, clearBit_eq, hclearable, ← hfreed]
  split <;> rfl

/-- A way to free what hangs on a root. `nodes` are the blocks that it reads or frees, `leaves` those
that it frees, and `capacity` is how many it can free. The nodes depend on the disk only in
themselves. -/
structure Frees {α : Type*} (free : Context → ℕ → α → Option (Context × ℕ)) (capacity : α → ℕ)
    (nodes leaves : (ℕ → Bytes) → ℕ → α → List ℕ) : Prop where
  subset : ∀ disk count root, leaves disk count root ⊆ nodes disk count root
  congr : ∀ {disk other : ℕ → Bytes} {count : ℕ} {root : α},
    (∀ block ∈ nodes disk count root, other block = disk block) →
      nodes other count root = nodes disk count root ∧
      leaves other count root = leaves disk count root
  eq : ∀ {fs : Context} {count : ℕ} {root : α}, 0 < count →
    (nodes fs.blocks count root).Nodup → (∀ block ∈ nodes fs.blocks count root, block < fs.numBlocks) →
      free fs count root = if Clearable (leaves fs.blocks count root) then
        some (freed fs (leaves fs.blocks count root), count - capacity root) else none

variable {α : Type*} {free : Context → ℕ → α → Option (Context × ℕ)} {capacity : α → ℕ}
  {nodes leaves : (ℕ → Bytes) → ℕ → α → List ℕ}

@[simp]
theorem spread_zero (visit : ℕ → α → List ℕ) (roots : List α) :
    spread capacity visit 0 roots = [] := by
  cases roots <;> rfl

theorem spread_cons (visit : ℕ → α → List ℕ) {count : ℕ} (hcount : 0 < count) (root : α)
    (roots : List α) : spread capacity visit count (root :: roots) =
      visit count root ++ spread capacity visit (count - capacity root) roots :=
  if_neg (by omega)

theorem Frees.spread_subset (hfrees : Frees free capacity nodes leaves) (disk : ℕ → Bytes) :
    ∀ (count : ℕ) (roots : List α), spread capacity (leaves disk) count roots ⊆
      spread capacity (nodes disk) count roots
  | _, [] => Subset.refl _
  | 0, _ :: _ => Subset.refl _
  | count + 1, root :: roots => by
      exact append_subset.mpr
        ⟨Subset.trans (hfrees.subset ..) (subset_append_left ..),
          Subset.trans (hfrees.spread_subset disk ..) (subset_append_right ..)⟩

theorem Frees.spread_congr (hfrees : Frees free capacity nodes leaves) {disk other : ℕ → Bytes} :
    ∀ {count : ℕ} {roots : List α},
      (∀ block ∈ spread capacity (nodes disk) count roots, other block = disk block) →
      spread capacity (nodes other) count roots = spread capacity (nodes disk) count roots ∧
      spread capacity (leaves other) count roots = spread capacity (leaves disk) count roots
  | _, [], _ => ⟨rfl, rfl⟩
  | 0, _ :: _, _ => ⟨rfl, rfl⟩
  | count + 1, root :: roots, hsame => by
      have hcount := Nat.succ_pos count
      obtain ⟨hnodes, hleaves⟩ := hfrees.congr fun block hblock ↦
        hsame block (mem_append_left _ hblock)
      obtain ⟨hrestNodes, hrestLeaves⟩ := hfrees.spread_congr fun block hblock ↦
        hsame block (mem_append_right _ hblock)
      simp only [spread_cons _ hcount, hnodes, hleaves, hrestNodes, hrestLeaves, and_self]

theorem Frees.freeEach_eq (hfrees : Frees free capacity nodes leaves) :
    ∀ (roots : List α) {fs : Context} {count : ℕ}, 0 < count →
      (spread capacity (nodes fs.blocks) count roots).Nodup →
      (∀ block ∈ spread capacity (nodes fs.blocks) count roots, block < fs.numBlocks) →
      freeEach free roots fs count =
        if Clearable (spread capacity (leaves fs.blocks) count roots) then
          some (freed fs (spread capacity (leaves fs.blocks) count roots),
            count - (roots.map capacity).sum)
        else none
  | [], fs, count, _, _, _ => by simp [freeEach, spread, Clearable]
  | root :: roots, fs, count, hcount, hnodup, hdev => by
      rw [spread_cons _ hcount] at hnodup hdev ⊢
      obtain ⟨hfirst, hrest, hdisj⟩ := nodup_append'.mp hnodup
      have hstep := hfrees.eq hcount hfirst fun block hblock ↦
        hdev block (mem_append_left _ hblock)
      rw [freeEach, hstep, map_cons, sum_cons]
      by_cases hclear : Clearable (leaves fs.blocks count root)
      · simp only [clearable_append, hclear, true_and, if_true, bind_eq_bind, bind_some]
        by_cases hdone : count - capacity root = 0
        · rw [if_pos hdone, hdone, spread_zero, append_nil, if_pos (by simp [Clearable]),
            show count - (capacity root + (roots.map capacity).sum) = 0 by omega]
        · -- none of the remaining nodes was freed so far, so they are on the disk as before
          have hsame : ∀ block ∈ spread capacity (nodes fs.blocks) (count - capacity root) roots,
              (freed fs (leaves fs.blocks count root)).blocks block = fs.blocks block :=
            fun block hblock ↦ freed_blocks_of_notMem fun hfreed ↦
              hdisj (hfrees.subset _ _ _ hfreed) hblock
          obtain ⟨hnodes, hleaves⟩ := hfrees.spread_congr hsame
          rw [if_neg hdone, hfrees.freeEach_eq roots (by omega) (by rwa [hnodes])
            (by
              rw [hnodes]
              exact fun block hblock ↦ hdev block (mem_append_right _ hblock)),
            hleaves, freed_append, Nat.sub_add_eq]
      · rw [if_neg hclear, if_neg fun hboth ↦ hclear (clearable_append.mp hboth).1]
        rfl

theorem frees_freeTree : ∀ depth, Frees (freeTree depth)
    (fun _ ↦ NUM_BLOCKS_IN_INDIRECTION_BLOCK ^ depth)
    (fun disk count root ↦ treeBlocks disk depth count root)
    (fun disk count root ↦ treeLeaves disk depth count root)
  | 0 =>
      { subset := fun _ _ _ ↦ Subset.refl _
        congr := fun _ ↦ ⟨rfl, rfl⟩
        eq := fun {fs count root} _ _ hdev ↦ by
          simp only [treeBlocks, treeLeaves, mem_singleton, forall_eq] at hdev ⊢
          rw [freeTree, freeBlockAndMarkBitmap_eq hdev]
          by_cases hclear : Clearable [root] <;> simp [hclear] }
  | depth + 1 =>
      have hfrees := frees_freeTree depth
      { subset := fun disk count root ↦
          Subset.trans (hfrees.spread_subset disk count _) (subset_cons_self ..)
        congr := fun {disk other count root} hsame ↦ by
          have hroot : other root = disk root := hsame root mem_cons_self
          obtain ⟨hnodes, hleaves⟩ := hfrees.spread_congr fun block hblock ↦
            hsame block (mem_cons_of_mem _ hblock)
          simp only [treeBlocks, treeLeaves, hroot, hnodes, hleaves, and_self]
        eq := fun {fs count root} hcount hnodup hdev ↦ by
          have hread : readBlockByNumber fs root = some (fs.blocks root) :=
            if_pos (hdev root mem_cons_self)
          rw [freeTree, hread]
          simp only [bind_eq_bind, bind_some]
          rw [hfrees.freeEach_eq _ hcount (nodup_cons.mp hnodup).2
            fun block hblock ↦ hdev block (mem_cons_of_mem _ hblock)]
          simp [treeLeaves, pow_succ'] }

/-- The blocks that the inode uses are pairwise distinct, and on the device. -/
structure SoundBlocks (fs : Context) (inode : Inode) : Prop where
  nodup : (blocksOf fs.blocks inode).Nodup
  onDevice : ∀ block ∈ blocksOf fs.blocks inode, block < fs.numBlocks

theorem frees_root : Frees (fun fs count (root : ℕ × ℕ) ↦ freeTree root.1 fs count root.2)
    (fun root ↦ NUM_BLOCKS_IN_INDIRECTION_BLOCK ^ root.1)
    (fun disk count root ↦ treeBlocks disk root.1 count root.2)
    (fun disk count root ↦ treeLeaves disk root.1 count root.2) where
  subset disk count root := (frees_freeTree root.1).subset disk count root.2
  congr hsame := (frees_freeTree _).congr hsame
  eq hcount hnodup hdev := (frees_freeTree _).eq hcount hnodup hdev

theorem dataBlocks_subset (disk : ℕ → Bytes) (inode : Inode) :
    dataBlocks disk inode ⊆ blocksOf disk inode :=
  frees_root.spread_subset disk ..

def inodeCapacity (inode : Inode) : ℕ :=
  ((roots inode).map fun root ↦ NUM_BLOCKS_IN_INDIRECTION_BLOCK ^ root.1).sum

/-- `free_blocks_from_inode` frees the data blocks. It takes from the block count what is left to free
then, where it should take what it has freed. -/
theorem freeBlocksFromInode_eq {inode : Inode} (hsound : SoundBlocks fs inode) :
    freeBlocksFromInode fs inode.blockCount inode =
      if Clearable (dataBlocks fs.blocks inode) then
        some (freed fs (dataBlocks fs.blocks inode),
          { inode with blockCount := inode.blockCount - (inode.blockCount - inodeCapacity inode) })
      else none := by
  rcases Nat.eq_zero_or_pos inode.blockCount with hzero | hpos
  · have hnone : dataBlocks fs.blocks inode = [] := by
      rw [dataBlocks, hzero, spread_zero]
    rw [freeBlocksFromInode, if_pos hzero, hnone, if_pos (by simp [Clearable]), freed_nil, hzero,
      Nat.zero_sub, ← hzero]
  · rw [freeBlocksFromInode, if_neg (by omega),
      frees_root.freeEach_eq _ hpos hsound.nodup hsound.onDevice, ← dataBlocks, inodeCapacity]
    by_cases hclear : Clearable (dataBlocks fs.blocks inode) <;> simp [hclear]

/-- What freeing the blocks of a file should do: the blocks that it uses are free then, no other block
is, and none is counted. -/
structure FreesBlocks (fs : Context) (inode : Inode) (after : Context) (inode' : Inode) : Prop where
  freed : ∀ block ∈ blocksOf fs.blocks inode, after.blockBitmap block = false
  others : ∀ block ∉ blocksOf fs.blocks inode, after.blockBitmap block = fs.blockBitmap block
  blockCount : inode'.blockCount = 0

/-- **Freeing the blocks of a file** never does all that: the file has its block count still. -/
theorem freeBlocksFromInode_not_frees {inode : Inode} (hsound : SoundBlocks fs inode)
    (hsome : 1 ≤ inode.blockCount) (hcapacity : inode.blockCount ≤ inodeCapacity inode) :
    ¬∃ after inode', freeBlocksFromInode fs inode.blockCount inode = some (after, inode') ∧
      FreesBlocks fs inode after inode' := by
  rintro ⟨after, inode', hcall, hfrees⟩
  rw [freeBlocksFromInode_eq hsound, Nat.sub_eq_zero_of_le hcapacity, Nat.sub_zero] at hcall
  split at hcall
  · cases hcall
    have hcount : inode.blockCount = 0 := hfrees.blockCount
    omega
  · cases hcall

def oneBlockFile : Context where
  superblock := ⟨1, 1, 1, 1⟩
  deviceMinor := 0
  numBlocks := 3
  inodeBitmap := fun number ↦ number == 0
  blockBitmap := fun number ↦ number == 0
  inodes := fun _ ↦ { Inode.zero with type := typeCode .file, size := 1, blockCount := 1 }
  blocks := fun _ _ ↦ 0

theorem freeBlocksFromInode_oneBlockFile :
    blocksOf oneBlockFile.blocks (oneBlockFile.inodes 0) = [0] ∧
      ¬∃ after inode', freeBlocksFromInode oneBlockFile 1 (oneBlockFile.inodes 0) =
        some (after, inode') ∧ FreesBlocks oneBlockFile (oneBlockFile.inodes 0) after inode' :=
  ⟨rfl, @freeBlocksFromInode_not_frees oneBlockFile (oneBlockFile.inodes 0)
    ⟨by decide, by decide⟩ le_rfl (by decide)⟩

/-- The block is freed, and the count is one. -/
theorem freeBlocksFromInode_keepsCount :
    (freeBlocksFromInode oneBlockFile 1 (oneBlockFile.inodes 0)).map (fun (after, inode) ↦
      (after.blockBitmap 0, inode.blockCount)) = some (false, 1) := by
  decide

end DionysOS.Filesystem.Diosfs
